import Katmai.FileServer.Datagram
import Katmai.Foundation.Registry

/-!
# The table of clients of an `rbmcast` server

`rbmcast` counts the clients that have joined a reliable broadcast in a table of `addrcnt` slots, by
address. A slot is never freed.
-/

set_option autoImplicit false
set_option relaxedAutoImplicit false

namespace Katmai.Rbmcast

open FileServer Foundation

/-- The fields of `struct rbmcast_lib_pd_t` for the clients. -/
structure ClientTable where
  addrcnt : ℕ
  addruse : ℕ → Bool
  addrlist : ℕ → Address
  addruseCnt : ℕ

/-- The table of `addrcnt` slots that `rbm_bind` makes, in memory that held `memory`. -/
def newClientTable (addrcnt : ℕ) (memory : ℕ → Address) : ClientTable where
  addrcnt := addrcnt
  addruse := fun _ ↦ false
  addrlist := memory
  addruseCnt := 0

/-- `regist_client`. -/
def ClientTable.registClient (pd : ClientTable) (source : Address) : ℤ × ClientTable :=
  match scanSlots pd.addruse (fun i ↦ (pd.addrlist i).ip == source.ip) pd.addrcnt 0 none with
  | some f =>
    if pd.addruse f then (f, pd)
    else (f, { pd with
      addruse := Function.update pd.addruse f true
      addrlist := Function.update pd.addrlist f source
      addruseCnt := pd.addruseCnt + 1 })
  | none => (-1, pd)

end Katmai.Rbmcast
