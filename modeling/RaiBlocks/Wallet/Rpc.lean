import RaiBlocks.Lib.Accounts
import RaiBlocks.Wallet.Entries

/-!
# Requests about the accounts of a wallet

Translation of `wallet_add_watch`, `account_remove`, `wallet_contains` and `work_set` of
`rai::rpc_handler` (`rai/node/rpc.cpp`), for the wallet that the request names. A handler
returns its answers, in order, and the wallet's table.
-/

namespace RaiBlocks

open Foundation

namespace WalletStore

variable {e : WalletEnv}

def workPut (w : WalletStore e) (pub : Uint256) (work : Uint64) :
    Except Fault (WalletStore e) := do
  let entry := w.entryGetRaw pub
  assertThat (entry.key ≠ 0)
  return w.entryPutRaw pub { entry with work := work }

end WalletStore

/-- The fields of an answer. -/
abbrev Answer : Type := List (String × String)

def errorResponse (message : String) : Answer := [("error", message)]

/-- What all requests of a server have in common. -/
structure RpcConfig where
  enableControl : Bool
  /-- The check of an account number. -/
  check : Uint256 → BitVec 40

namespace RpcConfig

variable {e : WalletEnv} (c : RpcConfig)

/-- One account of the loop. An account number that is bad is answered and skipped. -/
def addWatch (r : List Answer × WalletStore e) (text : List UInt8) :
    Except Fault (List Answer × WalletStore e) := do
  match ← decodeAccount c.check text with
  | some account => return (r.1, r.2.insertWatch account)
  | none => return (r.1 ++ [errorResponse "Bad account number"], r.2)

def walletAddWatch (w : WalletStore e) (accounts : List (List UInt8)) :
    Except Fault (List Answer × WalletStore e) := do
  if c.enableControl then
    if w.validPassword then
      let r ← accounts.foldlM c.addWatch ([], w)
      return (r.1 ++ [[("success", "")]], r.2)
    else return ([errorResponse "Wallet locked"], w)
  else return ([errorResponse "RPC control is disabled"], w)

def accountRemove (w : WalletStore e) (account : List UInt8) :
    Except Fault (List Answer × WalletStore e) := do
  if c.enableControl then
    if w.validPassword then
      match ← decodeAccount c.check account with
      | some account =>
        if w.exists' account then
          let w ← w.erase account
          return ([[("removed", "1")]], w)
        else return ([errorResponse "Account not found in wallet"], w)
      | none => return ([errorResponse "Bad account number"], w)
    else return ([errorResponse "Wallet locked"], w)
  else return ([errorResponse "RPC control is disabled"], w)

def walletContains (w : WalletStore e) (account : List UInt8) :
    Except Fault (List Answer × WalletStore e) := do
  match ← decodeAccount c.check account with
  | some account => return ([[("exists", if w.exists' account then "1" else "0")]], w)
  | none => return ([errorResponse "Bad account number"], w)

/-- `work` is the number that the text of the request stands for, if it does. -/
def workSet (w : WalletStore e) (account : List UInt8) (work : Option Uint64) :
    Except Fault (List Answer × WalletStore e) := do
  if c.enableControl then
    match ← decodeAccount c.check account with
    | some account =>
      if w.exists' account then
        match work with
        | some work =>
          let w ← w.workPut account work
          return ([[("success", "")]], w)
        | none => return ([errorResponse "Bad work"], w)
      else return ([errorResponse "Account not found in wallet"], w)
    | none => return ([errorResponse "Bad account number"], w)
  else return ([errorResponse "RPC control is disabled"], w)

end RpcConfig

end RaiBlocks
