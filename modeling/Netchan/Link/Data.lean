import Netchan.Link.Pair

/-!
# The application's data

`data_in_order`: what the application of one end is given is what the other end's sent, in order, once
and unaltered. The links number nothing of their own for this. It comes from netchan, whose sequence
numbers the replay window of nc_crypto keeps from being mistaken (`relay_paced`).
-/

namespace Netchan.Link

open Lib Crypto Transport

/-- What the application was given. -/
def dataIn (log : List Act) : List (List UInt8) :=
  log.filterMap fun
    | .data body => some body
    | _ => none

/-- The messages of the application among those that were written or read. -/
def bodies (msgs : List (List UInt8)) : List (List UInt8) :=
  msgs.filterMap fun
    | [] => none
    | tag :: body => if tag = tagApp then some body else none

/-- What netchan took from the application. -/
def dataOut (log : List Act) : List (List UInt8) :=
  bodies (log.filterMap fun
    | .write _ msg (.ok _) => some msg
    | _ => none)

/-- The messages that were read. -/
def allRead (log : List Act) : List (List UInt8) :=
  log.filterMap fun
    | .read _ (.ok (b :: msg)) => some (b :: msg)
    | _ => none

section
variable {P : Monocypher} {hear : Session → List UInt8 → Prop} {l0 l : AuthLink}

/-! ## What is given was read -/

theorem dataIn_does (l : AuthLink) (act : Act) :
    dataIn (l.does P act).log = dataIn l.log ++ dataIn [act] := by
  rw [log_does, dataIn, List.filterMap_append]
  rfl

theorem bodies_append (msgs msgs' : List (List UInt8)) :
    bodies (msgs ++ msgs') = bodies msgs ++ bodies msgs' := List.filterMap_append ..

theorem allRead_does (l : AuthLink) (act : Act) :
    allRead (l.does P act).log = allRead l.log ++ allRead [act] := by
  rw [log_does, allRead, List.filterMap_append]
  rfl

/-- What was given are bodies of messages that were read, and the one that was just read was not given
yet. -/
structure Gives (l : AuthLink) : Prop where
  given : (dataIn l.log).Sublist (bodies (allRead l.log))
  pending : ∀ id body, l.log.getLast? = some (.read id (.ok (tagApp :: body))) →
    ((dataIn l.log) ++ [body]).Sublist (bodies (allRead l.log))

theorem gives_act (h : Gives l) {act : Act} (hmay : May P hear l act) : Gives (l.does P act) := by
  have hgrow : (dataIn l.log).Sublist (bodies (allRead (l.does P act).log)) := by
    rw [allRead_does, bodies_append]
    exact h.given.trans (List.sublist_append_left ..)
  by_cases hdata : ∃ body, act = .data body
  · obtain ⟨body, rfl⟩ := hdata
    obtain ⟨-, id, hlast⟩ := hmay
    refine ⟨?_, ?_⟩
    · rw [dataIn_does, allRead_does, bodies_append]
      exact (h.pending id body hlast).trans (List.sublist_append_left ..)
    · rw [getLast_does]
      intro _ _ he
      cases Option.some.inj he
  · have hsame : dataIn (l.does P act).log = dataIn l.log := by
      rw [dataIn_does]
      cases act with
      | data body => exact absurd ⟨body, rfl⟩ hdata
      | _ => exact List.append_nil _
    refine ⟨by rw [hsame]; exact hgrow, ?_⟩
    rw [getLast_does, hsame]
    intro id body he
    obtain rfl := Option.some.inj he
    rw [allRead_does, bodies_append]
    exact h.given.append (List.Sublist.refl _)

theorem gives_moves (h : Moves P hear l0 l) (h0 : New l0) : Gives l := by
  induction h with
  | refl => exact ⟨by rw [h0.log]; exact List.Sublist.refl _, by rw [h0.log]; simp⟩
  | tail _ hm ih =>
    cases hm with
    | act hmay => exact gives_act ih hmay
    | note => exact ⟨ih.given, ih.pending⟩
    | close => exact ⟨ih.given, ih.pending⟩

/-! ## What is written -/

theorem writes_moves (h : Moves P hear l0 l) (h0 : New l0) :
    ∀ id msg out, .write id msg out ∈ l.log → l.tx = some id := by
  induction h with
  | refl =>
    rw [h0.log]
    simp
  | @tail b c _ hm ih =>
    cases hm with
    | @act act hmay =>
      intro id msg out hmem
      rw [log_does] at hmem
      rcases List.mem_append.1 hmem with hmem | hmem
      · have htx := ih id msg out hmem
        exact tx_moves (.single (.act hmay)) htx
      · obtain rfl := List.mem_singleton.1 hmem
        exact hmay.2.1
    | note => exact ih
    | close => exact ih

theorem writtenOn_apart (h : Moves P hear l0 l) (h0 : New l0) {id : ChanId} (hid : l.tx ≠ some id) :
    writtenOn id l.log = [] := by
  refine List.filterMap_eq_nil_iff.2 fun act hmem => ?_
  cases act with
  | write j msg out =>
    have hj : j ≠ id := fun he => hid (he ▸ writes_moves h h0 j msg out hmem)
    cases out with
    | error e => rfl
    | ok n => exact if_neg fun hc => hj hc.1
  | _ => rfl

theorem filterMap_sublist {α β : Type} {f g : α → Option β} (h : ∀ a b, f a = some b → g a = some b) :
    ∀ l : List α, (l.filterMap f).Sublist (l.filterMap g)
  | [] => .slnil
  | a :: l => by
    have ih := filterMap_sublist h l
    cases hf : f a with
    | some b =>
      rw [List.filterMap_cons_some hf, List.filterMap_cons_some (h a b hf)]
      exact ih.cons_cons b
    | none =>
      rw [List.filterMap_cons_none hf]
      cases hg : g a with
      | none =>
        rw [List.filterMap_cons_none hg]
        exact ih
      | some b =>
        rw [List.filterMap_cons_some hg]
        exact ih.cons b

theorem bodies_written (id : ChanId) (log : List Act) :
    (bodies (writtenOn id log)).Sublist (dataOut log) := by
  refine List.Sublist.filterMap _ (filterMap_sublist (fun act msg h => ?_) log)
  cases act with
  | write j msg' out =>
    cases out with
    | error e => cases h
    | ok n =>
      by_cases hc : j = id ∧ n ≠ 0
      · rw [← h]
        exact (if_pos hc).symm
      · exact absurd (h.symm.trans (if_neg hc)) (by simp)
  | _ => cases h

/-! ## What is read -/

/-- All that was read was read from the channel `id`. -/
theorem allRead_of_apart (id : ChanId) {log : List Act} (h : ∀ j, j ≠ id → readOn j log = []) :
    allRead log = readOn id log := by
  refine List.filterMap_congr fun act hmem => ?_
  cases act with
  | read j out =>
    cases out with
    | error e => rfl
    | ok msg =>
      cases msg with
      | nil => rfl
      | cons b msg =>
        by_cases hj : j = id
        · exact (if_pos hj).symm
        · have hnone := List.filterMap_eq_nil_iff.1 (h j hj) _ hmem
          exact absurd (hnone.symm.trans (if_pos rfl)) (by simp)
  | _ => rfl

theorem allRead_nil {log : List Act} (h : ∀ j, readOn j log = []) : allRead log = [] := by
  rw [allRead_of_apart 0 fun j _ => h j]
  exact h 0

end

/-! ## Runs -/

/-- A call that `relay_in_order` allows in the default configuration. -/
def Tame : Netchan.Call → Prop
  | .write _ msg => msg.length ≤ maxFragPayload (netchanOpen false)
  | .chanOpen type _ _ => type = .reliable
  | .read _ buflen => buflen = bufSize
  | _ => True

theorem inOrder_of_fresh {ops : List Relay.Op}
    (hfresh : Along Relay.step (fun r op => op.Fresh r) (.init defaults) ops)
    (hcalls : ∀ s, ∀ k ∈ callsOf s ops, Tame k) :
    Along Relay.step (fun r op => op.InOrder r) (.init defaults) ops := by
  refine along_iff.2 fun pre op suf hops => ?_
  have hop : op.Fresh (Relay.run defaults pre) := along_iff.1 hfresh pre op suf hops
  have hpayload (s : Side) : maxFragPayload ((Relay.run defaults pre).conn s) =
      maxFragPayload (netchanOpen false) := maxFragPayload_congr (relay_cfg defaults pre s)
  cases op with
  | call s k =>
    have hk : Tame k := by
      refine hcalls s k (List.mem_filterMap.2 ⟨.call s k, ?_, if_pos rfl⟩)
      rw [hops]
      exact List.mem_append_right _ (.head _)
    change k.Plain ((Relay.run defaults pre).conn s) ∧
      k.Reads (maxFragPayload ((Relay.run defaults pre).conn s.other))
    rw [hpayload]
    cases k with
    | write id msg =>
      refine ⟨?_, trivial⟩
      change _ ≤ _
      rw [hpayload]
      exact hk
    | chanOpen type dir contentType => exact ⟨hk, trivial⟩
    | read id buflen =>
      obtain rfl : buflen = bufSize := hk
      exact ⟨trivial, show maxFragPayload (netchanOpen false) ≤ bufSize by decide⟩
    | _ => exact ⟨trivial, trivial⟩
  | send s env buflen => exact hop
  | post s => trivial
  | take s i env source => exact hop.2

theorem tame_of_log {P : Monocypher} {hear : Session → List UInt8 → Prop} {l0 l : AuthLink}
    (h : Moves P hear l0 l) (h0 : New l0)
    (hsmall : ∀ id msg out, .write id msg out ∈ l.log →
      msg.length ≤ maxFragPayload (netchanOpen false)) :
    ∀ k ∈ l.log.filterMap Act.netchan, Tame k := by
  intro k hk
  obtain ⟨act, hmem, hact⟩ := List.mem_filterMap.1 hk
  cases act with
  | call k' =>
    obtain rfl : k' = k := Option.some.inj hact
    obtain ⟨pre, post, hlog⟩ := List.append_of_mem hmem
    obtain ⟨m, -, -, hmay, -⟩ := act_made h h0.log hlog
    cases k' with
    | write id msg => exact False.elim hmay
    | chanOpen type dir contentType => exact False.elim hmay
    | read id buflen => exact False.elim hmay
    | _ => trivial
  | chanOpen out =>
    obtain rfl := Option.some.inj hact
    rfl
  | write id msg out =>
    obtain rfl := Option.some.inj hact
    exact hsmall id msg out hmem
  | read id out =>
    obtain rfl := Option.some.inj hact
    rfl
  | _ => cases hact

section
variable {P : Monocypher} {io : Side → Nat → Moment} {limit depth : Nat} {cfgs : Side → Cfg}
  {randoms : Side → Option Key} {evs : List (Side × Event)} {ls : Links}

/-- **What the application of one end is given is what the other end's sent**, in order, once and
unaltered: whatever the network does with the datagrams, unless somebody forges, and as long as every
message fits one fragment. -/
theorem data_in_order (hun : P.Unlocks) (h : Joined P io limit depth cfgs randoms evs ls)
    (hsmall : ∀ s id msg out, .write id msg out ∈ (ls s).log →
      msg.length ≤ maxFragPayload (ls s).conn) (s : Side) :
    (dataIn (ls s.other).log).Sublist (dataOut (ls s).log) := by
  obtain ⟨l0, h0, ⟨ops, hb⟩, -⟩ := joined_live hun h
  have hpayload (t : Side) : maxFragPayload (ls t).conn = maxFragPayload (netchanOpen false) := by
    rw [← (hb.tunnel t).conn]
    exact maxFragPayload_congr (relay_cfg defaults ops t)
  have htame (t : Side) : ∀ k ∈ callsOf t ops, Tame k := by
    rw [hb.calls t]
    exact tame_of_log (hb.moves t) (h0 t).new fun id msg out hmem =>
      hpayload t ▸ hsmall t id msg out hmem
  obtain ⟨H, hpaced⟩ := relay_paced defaults ops (inOrder_of_fresh hb.fresh htame)
  have hread (id : ChanId) : (readOn id (ls s.other).log).Sublist (writtenOn id (ls s).log) := by
    rw [← (hb.tunnel s.other).read, ← (hb.tunnel s).written]
    exact hpaced.in_order s id
  have hnone {id : ChanId} (hid : (ls s).tx ≠ some id) : readOn id (ls s.other).log = [] := by
    have := hread id
    rw [writtenOn_apart (hb.moves s) (h0 s).new hid] at this
    exact List.sublist_nil.1 this
  refine (gives_moves (hb.moves s.other) (h0 s.other).new).given.trans ?_
  cases htx : (ls s).tx with
  | none =>
    rw [allRead_nil fun j => hnone (by rw [htx]; simp)]
    exact List.nil_sublist _
  | some id =>
    rw [allRead_of_apart id fun j hj => hnone (by rw [htx]; simpa using Ne.symm hj)]
    exact ((hread id).filterMap _).trans (bodies_written id _)

end

def Act.fits (limit : Nat) : Act → Bool
  | .write _ msg _ => msg.length ≤ limit
  | _ => true

/-- The client logs in and sends `hi`. -/
theorem data_in_order_sample : dataIn (sampleLinks 11 .server).log = [[0x68, 0x69]] ∧
    (dataIn (sampleLinks 11 .server).log).Sublist (dataOut (sampleLinks 11 .client).log) := by
  have hall : Along (Links.step sampleMonocypher sampleIo 8 4) (Genuine sampleMonocypher sampleIo)
      sampleLink (sampleTurns 11) ∧ dataIn (sampleLinks 11 .server).log = [[0x68, 0x69]] ∧
      ∀ s, (sampleLinks 11 s).log.all (Act.fits (maxFragPayload (sampleLinks 11 s).conn)) = true := by
    decide +kernel
  refine ⟨hall.2.1, data_in_order sample_unlocks (sample_joined hall.1) (fun s id msg out hmem => ?_)
    .client⟩
  simpa [Act.fits] using List.all_eq_true.1 (hall.2.2 s) _ hmem

end Netchan.Link
