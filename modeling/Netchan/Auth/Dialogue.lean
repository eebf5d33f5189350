import Netchan.Auth.Spoken

/-!
# A client and a server

`Dialogue` joins two conversations by two queues that lose nothing and keep the order. `Event` is what
can happen: a delivery, a call of the client's application, a call of `nc_auth_server_resume`.
`Allowed` says when the server's application may make that call.
-/

namespace Netchan.Auth

open Lib Idl Crypto

/-- The two conversations and the messages in flight. `waiting` is what the server's application knows
of a running method: the last verdict was to wait. -/
structure Dialogue where
  cl : NcAuth
  sv : NcAuth
  up : List (List UInt8) := []
  down : List (List UInt8) := []
  waiting : Bool := false

inductive Event
  | toServer (env : Env)
  | toClient
  | call (c : ClientCall)
  | resume (env : Env) (what : Verdict) (form : Option Form) (token : Option (List UInt8))

section
variable (P : Monocypher)

/-- The server did something. -/
def Dialogue.served (d : Dialogue) (r : NcAuth × List Act) : Dialogue :=
  { d with sv := r.1, down := d.down ++ sent r.2, waiting := parkedBy d.waiting r.2 }

/-- The client did something. -/
def Dialogue.asked (d : Dialogue) (r : NcAuth × List Act) : Dialogue :=
  { d with cl := r.1, up := d.up ++ sent r.2 }

def Event.apply (d : Dialogue) : Event → Dialogue
  | .toServer env =>
    match d.up with
    | [] => d
    | msg :: up => { d with up }.served (ncAuthFeed P env d.sv msg).2
  | .toClient =>
    match d.down with
    | [] => d
    | msg :: down => { d with down }.asked (ncAuthFeed P noEnv d.cl msg).2
  | .call c => d.asked (c.exec P d.cl)
  | .resume env what form token => d.served (ncAuthServerResume env d.sv what form token)

end

/-- The applications do not feed messages of their own. A method is resumed while it waits, or with
`denied`. -/
def Allowed (d : Dialogue) : Event → Prop
  | .call (.feed _) => False
  | .resume _ what _ _ => d.waiting = true ∨ what = .denied
  | _ => True

instance (d : Dialogue) : ∀ e, Decidable (Allowed d e)
  | .call (.feed _) => .isFalse id
  | .call (.supplyKey _) => .isTrue trivial
  | .call (.supplyPassword _) => .isTrue trivial
  | .call (.supplyMethod _) => .isTrue trivial
  | .call (.submit _) => .isTrue trivial
  | .call .cancel => .isTrue trivial
  | .call (.resumePending _) => .isTrue trivial
  | .resume _ _ _ _ => inferInstanceAs (Decidable (_ ∨ _))
  | .toServer _ => .isTrue trivial
  | .toClient => .isTrue trivial

/-- Two conversations after `nc_auth_start`. -/
def introduce (sid sid' : Key) (user : CStr) (cap cap' : Nat) (cbs : Callbacks) : Dialogue :=
  let cl := newClient sid user true (some cap)
  { cl, sv := fresh sid' { cbs with send := true } (some cap'), up := sent (ncAuthStart cl) }

end Netchan.Auth
