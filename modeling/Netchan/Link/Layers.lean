import Netchan.Auth.Login
import Netchan.Link.Settle

/-!
# What the log of a link says

Every act in the log was made in a state that an earlier part of the run had reached (`act_made`), so
what holds in every state and what `May` asks for says in which order the layers are used. `Layers`
ties the fields of the link to the log: each layer is in the state that its own calls lead to, so
that what was proved of the runs of a layer holds of the link.
-/

namespace Netchan.Link

open Lib Crypto Transport

/-- The calls of nc_crypto. -/
def cryptoSteps (log : List Act) : List Crypto.Step :=
  log.filterMap fun
    | .sealed plain _ => some (.send plain sealedSize)
    | .opened answer pkt _ => some (.recv answer pkt bufSize)
    | _ => none

/-- The calls of nc_auth on a server. -/
def serverCalls (log : List Act) : List Auth.ServerCall :=
  log.filterMap fun
    | .server c => some c
    | _ => none

/-- A link before anything happened. -/
structure New (l : AuthLink) : Prop where
  log : l.log = []
  up : l.up = false
  down : l.down = false
  closing : l.closing = false
  authStarted : l.authStarted = false
  auth : l.auth = {}
  needFired : l.needFired = .nothing

section
variable {P : Monocypher} {hear : Session → List UInt8 → Prop} {l0 l : AuthLink}

theorem New.fine (h : New l) : Fine l :=
  ⟨h.closing, fun hok => absurd (h.auth ▸ hok) (by decide), fun _ _ _ => by rw [h.auth, h.needFired],
    fun _ => ⟨h.auth, h.needFired, h.up⟩, fun _ => by rw [h.auth]⟩

theorem init_spec {cfg : Cfg} {random : Option Key} (h : AuthLink.init P cfg random = some l) :
    New l ∧ l.server = cfg.server ∧ l.scb = cfg.scb ∧ l.conn = netchanOpen cfg.server ∧
      l.user = Auth.CStr.take cfg.user Auth.ncAuthMaxUser ∧
      ncCryptoInit P (if cfg.server then .responder else .initiator)
        { psk := cfg.psk, staticSk := cfg.staticSk, requirePeerStatic := cfg.requirePeerStatic
          verifyPeer := cfg.verifyPeer } random = some l.crypto := by
  unfold AuthLink.init at h
  split at h
  · cases h
  · obtain ⟨crypto, hc, rfl⟩ := Option.map_eq_some_iff.1 h
    exact ⟨⟨rfl, rfl, rfl, rfl, rfl, rfl, rfl⟩, rfl, rfl, rfl, rfl, hc⟩

/-- **Every act was made** in a state that was reached before. -/
theorem act_made (h : Moves P hear l0 l) (h0 : l0.log = []) {pre post : List Act} {act : Act}
    (hlog : l.log = pre ++ act :: post) :
    ∃ m, Moves P hear l0 m ∧ m.log = pre ∧ May P hear m act ∧ Moves P hear (m.does P act) l := by
  induction h generalizing post with
  | refl =>
    rw [h0] at hlog
    cases pre <;> cases hlog
  | @tail m l hm hml ih =>
    cases hml with
    | act hact =>
      rename_i act'
      rw [log_does] at hlog
      rcases List.eq_nil_or_concat' post with rfl | ⟨post, last, rfl⟩
      · obtain ⟨hpre, hsame⟩ := List.append_inj' hlog rfl
        obtain rfl : act' = act := by simpa using hsame
        exact ⟨m, hm, hpre, hact, .refl⟩
      · rw [← List.cons_append, ← List.append_assoc] at hlog
        obtain ⟨m', h1, h2, h3, h4⟩ := ih (List.append_inj' hlog rfl).1
        exact ⟨m', h1, h2, h3, h4.tail (.act hact)⟩
    | note =>
      obtain ⟨m', h1, h2, h3, h4⟩ := ih hlog
      exact ⟨m', h1, h2, h3, h4.tail (.note ..)⟩
    | close =>
      obtain ⟨m', h1, h2, h3, h4⟩ := ih hlog
      exact ⟨m', h1, h2, h3, h4.tail (.close ..)⟩

/-- The conversation of a server whose calls the log lists. -/
def serverAuth (P : Monocypher) (l : AuthLink) : Auth.NcAuth :=
  run (Auth.ServerCall.apply P)
    (Auth.fresh l.crypto.sid { l.scb with send := true } (some Auth.ncFormMaxMsg)) (serverCalls l.log)

/-- The fields of a link, and what its log says. -/
structure Layers (P : Monocypher) (l0 l : AuthLink) : Prop where
  server : l.server = l0.server
  scb : l.scb = l0.scb
  crypto : l.crypto = run (Crypto.Step.apply P) l0.crypto (cryptoSteps l.log)
  up : l.up = true ↔ .up ∈ l.log
  down : l.down = true ↔ ∃ why, .down why ∈ l.log
  started : l.authStarted = true ↔ ∃ a, .start a ∈ l.log
  keyed : l.authStarted = true → l.crypto.haveKey = true
  waiting : l.authStarted = false → serverCalls l.log = []
  asked : l.up = true → l.authStarted = true
  login : l.server = true → l.authStarted = true → l.closing = false →
    l.auth = serverAuth P l ∧ ∀ c ∈ serverCalls l.log, c ≠ .clear

theorem New.layers (h : New l) : Layers P l l := by
  refine ⟨rfl, rfl, ?_, ?_, ?_, ?_, ?_, ?_, ?_, ?_⟩
  · rw [h.log]
    rfl
  · simp [h.up, h.log]
  · simp [h.down, h.log]
  · simp [h.authStarted, h.log]
  · intro hs
    exact absurd (h.authStarted.symm.trans hs) (by decide)
  · rw [h.log]
    exact fun _ => rfl
  · intro hup
    exact absurd (h.up.symm.trans hup) (by decide)
  · intro _ hs
    exact absurd (h.authStarted.symm.trans hs) (by decide)

/-- Once there are keys a call of nc_crypto moves the counters only. -/
theorem keyed_step {c : Session} (hk : c.haveKey = true) (st : Crypto.Step) :
    (st.apply P c).haveKey = true ∧ (st.apply P c).agreed = c.agreed := by
  obtain ⟨⟨t, w, m, he⟩, -⟩ := @step_frame P c st fun _ => .inl hk
  rw [he]
  exact ⟨hk, rfl⟩

theorem serverCalls_does (l : AuthLink) (act : Act) :
    serverCalls (l.does P act).log = serverCalls l.log ++ serverCalls [act] := by
  rw [log_does, serverCalls, List.filterMap_append]
  rfl

theorem cryptoSteps_does (l : AuthLink) (act : Act) :
    cryptoSteps (l.does P act).log = cryptoSteps l.log ++ cryptoSteps [act] := by
  rw [log_does, cryptoSteps, List.filterMap_append]
  rfl

theorem sid_of_agreed {c d : Session} (h : d.agreed = c.agreed) : d.sid = c.sid :=
  (agreed_ext h).2.2.1

theorem serverAuth_congr {m : AuthLink} (hsid : m.crypto.sid = l.crypto.sid) (hscb : m.scb = l.scb)
    (hcalls : serverCalls m.log = serverCalls l.log) : serverAuth P m = serverAuth P l := by
  rw [serverAuth, serverAuth, hsid, hscb, hcalls]

/-- What an act does to a conversation that a server has begun. -/
theorem Layers.act_login (h : Layers P l0 l) {act : Act} (hmay : May P hear l act)
    (hs : (l.does P act).server = true) (ha : (l.does P act).authStarted = true)
    (hc : (l.does P act).closing = false) :
    (l.does P act).auth = serverAuth P (l.does P act) ∧
      ∀ c ∈ serverCalls (l.does P act).log, c ≠ .clear := by
  have hsame (ha : l.authStarted = true) (hs : l.server = true) (hc : l.closing = false)
      (hsid : (l.does P act).crypto.sid = l.crypto.sid) (hscb : (l.does P act).scb = l.scb)
      (hcalls : serverCalls [act] = []) (hauth : (l.does P act).auth = l.auth) :
      (l.does P act).auth = serverAuth P (l.does P act) ∧
        ∀ c ∈ serverCalls (l.does P act).log, c ≠ .clear := by
    have hall : serverCalls (l.does P act).log = serverCalls l.log := by
      rw [serverCalls_does, hcalls, List.append_nil]
    rw [serverAuth_congr hsid hscb hall, hall, hauth]
    exact h.login hs ha hc
  cases act with
  | sealed plain out =>
    exact hsame ha hs hc
      (sid_of_agreed (keyed_step (P := P) (h.keyed ha) (.send plain sealedSize)).2) rfl rfl rfl
  | opened answer pkt out =>
    exact hsame ha hs hc
      (sid_of_agreed (keyed_step (P := P) (h.keyed ha) (.recv answer pkt bufSize)).2) rfl rfl rfl
  | start a =>
    obtain ⟨h1, -, -, rfl⟩ := hmay
    have hs' : l.server = true := hs
    have hcalls : serverCalls (l.does P (.start (conversation l))).log = [] := by
      rw [serverCalls_does, h.waiting h1]
      rfl
    refine ⟨?_, by rw [hcalls]; exact nofun⟩
    rw [serverAuth, hcalls]
    exact if_pos hs'
  | server c =>
    obtain ⟨h1, h2, h3⟩ := hmay
    have hc' : l.closing = false := hc
    obtain ⟨hauth, hclear⟩ := h.login h2 h1 hc'
    obtain ⟨-, env, msg, rfl⟩ := h3.resolve_right fun hx => absurd (hc'.symm.trans hx.1) (by decide)
    refine ⟨?_, fun c hmem => ?_⟩
    · rw [serverAuth, serverCalls_does]
      change (Auth.ServerCall.feed env msg).apply P l.auth =
        run (Auth.ServerCall.apply P) _ (serverCalls l.log ++ [.feed env msg])
      rw [run_concat, hauth]
      rfl
    · rw [serverCalls_does] at hmem
      rcases List.mem_append.1 hmem with hmem | hmem
      · exact hclear c hmem
      · obtain rfl := List.mem_singleton.1 hmem
        exact Auth.ServerCall.noConfusion
  | client c => exact absurd (hmay.2.1.symm.trans hs) (by decide)
  | _ => exact hsame ha hs hc rfl rfl rfl rfl

/-- **An act keeps the fields and the log together.** -/
theorem Layers.act (h : Layers P l0 l) {act : Act} (hmay : May P hear l act) :
    Layers P l0 (l.does P act) := by
  refine ⟨?_, ?_, ?_, ?_, ?_, ?_, ?_, ?_, ?_, h.act_login hmay⟩
  · cases act <;> exact h.server
  · cases act <;> exact h.scb
  · rw [cryptoSteps_does, run_append, ← h.crypto]
    cases act <;> rfl
  · cases act <;> simp [AuthLink.does, h.up]
  · cases act <;> simp [AuthLink.does, h.down]
  · cases act <;> simp [AuthLink.does, h.started]
  · intro ha
    cases act with
    | sealed plain out => exact (keyed_step (P := P) (h.keyed ha) (.send plain sealedSize)).1
    | opened answer pkt out => exact (keyed_step (P := P) (h.keyed ha) (.recv answer pkt bufSize)).1
    | start a => exact hmay.2.2.1
    | _ => exact h.keyed ha
  · intro ha
    rw [serverCalls_does]
    cases act with
    | start a => cases ha
    | server c => exact absurd (hmay.1.symm.trans ha) (by decide)
    | _ => exact (congrArg (· ++ []) (h.waiting ha))
  · intro hup
    cases act with
    | start a => rfl
    | up => exact hmay.1
    | _ => exact h.asked hup

/-- **The fields of a link and its log agree**, whatever happened. -/
theorem layers_moves (h : Moves P hear l0 l) (h0 : New l0) : Layers P l0 l := by
  induction h with
  | refl => exact h0.layers
  | tail _ hm ih =>
    cases hm with
    | act hmay => exact ih.act hmay
    | note =>
      exact ⟨ih.server, ih.scb, ih.crypto, ih.up, ih.down, ih.started, ih.keyed, ih.waiting, ih.asked,
        ih.login⟩
    | close =>
      exact ⟨ih.server, ih.scb, ih.crypto, ih.up, ih.down, ih.started, ih.keyed, ih.waiting, ih.asked,
        nofun⟩

end

/-! ## Runs -/

section
variable (P : Monocypher) (io : Nat → Moment) (limit depth : Nat)

/-- A link as `auth_link_open` returns it, after the events `evs`. -/
def Opened (cfg : Cfg) (random : Option Key) (evs : List Event) (l : AuthLink) : Prop :=
  ∃ l1, authLinkOpen P io limit depth cfg random = some l1 ∧
    l = run (AuthLink.step P io limit depth) l1 evs

variable {P io limit depth} {cfg : Cfg} {random : Option Key} {evs : List Event} {l : AuthLink}

/-- **Every run of a link is a sequence of moves.** -/
theorem opened_moves (h : Opened P io limit depth cfg random evs l) :
    ∃ l0, AuthLink.init P cfg random = some l0 ∧ New l0 ∧ Moves P (fun _ _ => True) l0 l := by
  obtain ⟨l1, hopen, rfl⟩ := h
  obtain ⟨l0, hinit, rfl⟩ := Option.map_eq_some_iff.1 hopen
  have hnew := (init_spec hinit).1
  have htick : onTick P io limit (nested P io limit depth) l0 =
      l0.step P io limit depth .tick := by
    rw [AuthLink.step, if_neg (by rw [hnew.closing]; decide)]
  have hevs (l : AuthLink) (ev : Event) : ev.Attended P (fun _ _ => True) io l := by
    cases ev with
    | readable ds =>
      induction ds generalizing l with
      | nil => trivial
      | cons d ds ih => exact ⟨trivial, fun _ => ih _⟩
    | _ => trivial
  refine ⟨l0, hinit, hnew, ?_⟩
  rw [htick, ← run_cons]
  have hrun : Moves P (fun _ _ => True) l0 (run (AuthLink.step P io limit depth) l0 (.tick :: evs)) ∧
      Alive (run (AuthLink.step P io limit depth) l0 (.tick :: evs)) :=
    run_invariant (I := fun l => Moves P (fun _ _ => True) l0 l ∧ Alive l) (A := fun _ _ => True)
      (fun l ev hl _ => by
        obtain ⟨h1, h2⟩ : Moves P _ l (l.step P io limit depth ev) ∧ _ := step_moves hl.2 (hevs l ev)
        exact ⟨hl.1.trans h1, h2⟩) ⟨.refl, fun _ => hnew.fine⟩ (along_true _)
  exact hrun.1

end

/-! ## A login -/

/-- Where the datagrams of the samples come from. -/
def samplePeer : SockAddr := .inet (.ofNat 4 0x7f000001) (.ofNat 2 0x1000)

/-- The client is `bob`, and sends when it is up. -/
def sampleCfg : Side → Cfg
  | .client =>
    { server := false, peer := ncUdpFromSockaddr samplePeer, user := ⟨_, Auth.zero_notMem_bob⟩
      cb := { onNeed := true, onUp := true } }
  | .server => { server := true, scb := Auth.sampleCallbacks, cb := { onData := true } }

theorem zero_notMem_pw : 0 ∉ Auth.chars ['p', 'w'] := by decide

/-- In a callback the client supplies the password `pw`, and sends `hi`. -/
def sampleIo (s : Side) (_ : Nat) : Moment where
  env := { now := 1000, entropy := 7 }
  now := 1000
  verifyPeer _ := true
  auth := Auth.sampleEnv
  timerId := 1
  script := match s with
    | .client => [.supplyPassword (some ⟨_, zero_notMem_pw⟩), .send [0x68, 0x69]]
    | .server => []

def sampleRandom : Side → Option Key
  | .client => some (sampleSk .initiator)
  | .server => some (sampleSk .responder)

theorem sample_opens (s : Side) :
    (authLinkOpen sampleMonocypher (sampleIo s) 8 4 (sampleCfg s) (sampleRandom s)).isSome = true := by
  cases s <;> decide +kernel

def sampleLink (s : Side) : AuthLink := Option.get _ (sample_opens s)

/-- A datagram of netchan that the client sealed with the counter `n`. -/
def samplePacked (n : UInt64) (plain : List UInt8) : Datagram :=
  ⟨Crypto.sealed sampleMonocypher sampleKey n plain, samplePeer⟩

/-- What reaches the server while the client logs in. -/
def sampleArrivals : List Event :=
  [.readable
    [⟨sampleHello .initiator, samplePeer⟩, samplePacked 1 [1, 0, 0, 0, 7, 1, 0, 0, 0, 7, 1]],
   .readable
    [samplePacked 2 [2, 0, 0, 0, 7, 0, 0, 11, 1, 0, 1, 0, 0, 7, 0, 0, 0, 4, 97, 117, 116, 104],
     samplePacked 3 ([2, 0, 0, 0, 7, 0, 1, 9, 0, 0, 0, 0, 6, 0, 1, tagAuth] ++ Auth.bobHello),
     samplePacked 4 ([2, 0, 0, 0, 7, 0, 2, 10, 1, 0, 0, 11, 1, 0, 1, 0, 0, 9, 0, 0, 1, 0, 5, 0, 1,
       tagAuth] ++ Auth.bobPassword)]]

/-- The server after the login. -/
def sampleServer : AuthLink :=
  run (AuthLink.step sampleMonocypher (sampleIo .server) 8 4) (sampleLink .server) sampleArrivals

theorem sampleServer_opened : Opened sampleMonocypher (sampleIo .server) 8 4 (sampleCfg .server)
    (sampleRandom .server) sampleArrivals sampleServer :=
  ⟨sampleLink .server, (Option.some_get (sample_opens .server)).symm, rfl⟩

end Netchan.Link
