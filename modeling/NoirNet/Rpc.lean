import NoirNet.Decode
import NoirNet.Lib.Hex
import NoirNet.Mempool

/-!
# The RPC server

`send_transaction` of `noirnet_rpc`.  `jsonrpsee` and the HTTP server are external:
a method takes the text of its parameters and returns a result or an error object.
-/

namespace NoirNet

open Lib Lib.Wire

inductive RpcError where
  /-- `ErrorCode::InvalidParams` -/
  | invalidParams
  /-- `ErrorCode::ParseError` -/
  | parseError
  | owned (code : Int) (message : String)
  deriving DecidableEq

/-- The derived `Debug` of `MempoolError`; no reason holds a character that is escaped. -/
def MempoolError.debug : MempoolError → String
  | .full => "Full"
  | .alreadyExists => "AlreadyExists"
  | .feeTooLow min => "FeeTooLow(" ++ toString min ++ ")"
  | .invalidFormat reason => "InvalidFormat(\"" ++ reason ++ "\")"
  | .doubleSpend => "DoubleSpend"
  | .alreadySpent => "AlreadySpent"

structure SentTransaction where
  broadcast : Bytes
  txId : String
  deriving DecidableEq

namespace Rpc

def sendTransaction [Blake3] (pool : PrivateMempool) (store : StateStore) (txHex : String) :
    Except RpcError (PrivateMempool × SentTransaction) :=
  match Hex.decode txHex with
  | none => .error .invalidParams
  | some txBytes =>
      match Reader.decodePrefix Transaction.deserialize txBytes with
      | none => .error .parseError
      | some tx =>
          match pool.insert store tx with
          | .error e => .error (.owned (-32000) ("Mempool error: " ++ e.debug))
          | .ok pool =>
              -- the bytes go out as they came
              .ok (pool, { broadcast := txBytes, txId := Hex.encode tx.txId.toList })

end Rpc

/-- Calls of `send_transaction` one after the other, on a pool and the store it shares. -/
def rpcMachine [Blake3] : Machine (PrivateMempool × StateStore) String SentTransaction where
  step
    | (pool, store), txHex =>
        match Rpc.sendTransaction pool store txHex with
        | .ok (pool, sent) => ((pool, store), [sent])
        | .error _ => ((pool, store), [])

end NoirNet
