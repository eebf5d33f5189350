import Netchan.Lib.Run
import Netchan.Lib.Unordered
import Mathlib.Data.List.Nodup
import Mathlib.Order.Nat

/-!
# The file descriptors of the event loop

The watchers of `examples/iox/iox_loop.c` and the dispatch of `iox_loop_poll`.

* `pfds` and `fds` are two arrays in step; an entry of the model has the fields of both. The first
  `nfds` entries are a list.
* `poll` is the kernel's: `answer i` are the events it reports for entry `i`, and its result is the
  number of entries with some event.
* `react k` is what the `k`-th callback of a dispatch does to the watchers; the timers are in
  `Netchan.Iox.Timer`.
* `serial` numbers the watchers in the order they were added, for the observer. No code reads it.
-/

namespace Netchan.Iox

open Lib

abbrev ioxMaxFds : Nat := 64

abbrev ioxRead : UInt32 := 1
abbrev ioxWrite : UInt32 := 2

abbrev pollIn : UInt16 := 0x001
abbrev pollOut : UInt16 := 0x004
abbrev pollErr : UInt16 := 0x008
abbrev pollHup : UInt16 := 0x010

/-- `struct pollfd` and `struct iox_fd_entry`; `cb` is the callback with its argument. -/
structure FdEntry (β : Type) where
  fd : Int
  pevents : UInt16
  revents : UInt16
  cb : Option β
  events : UInt32
  active : Bool
  serial : Nat

/-- The fields of `struct iox_loop` that the watchers use, and the number of watchers added. -/
structure Fds (β : Type) where
  entries : List (FdEntry β) := []
  dispatching : Bool := false
  compactNeeded : Bool := false
  added : Nat := 0

def pollEventsFromIox (ioxEvents : UInt32) : UInt16 :=
  (if ioxEvents &&& ioxRead ≠ 0 then pollIn else 0) |||
    if ioxEvents &&& ioxWrite ≠ 0 then pollOut else 0

def ioxEventsFromPoll (revents : UInt16) : UInt32 :=
  (if revents &&& (pollIn ||| pollHup ||| pollErr) ≠ 0 then ioxRead else 0) |||
    if revents &&& pollOut ≠ 0 then ioxWrite else 0

inductive FdCall (β : Type)
  | add (fd : Int) (events : UInt32) (cb : Option β)
  | mod (fd : Int) (events : UInt32)
  | remove (fd : Int)

inductive FdEvent
  | added (serial : Nat) (fd : Int)
  | removed (serial : Nat)
  | called (serial : Nat) (events : UInt32)
  deriving DecidableEq

section
variable {β : Type}

namespace Fds

/-- `iox_fd_add`. -/
def add (s : Fds β) (fd : Int) (events : UInt32) (cb : Option β) : Bool × Fds β :=
  if ioxMaxFds ≤ s.entries.length then (false, s)
  else
    let e : FdEntry β := { fd, pevents := pollEventsFromIox events, revents := 0, cb, events,
                           active := true, serial := s.added }
    (true, { s with entries := s.entries ++ [e], added := s.added + 1 })

/-- The first active entry of a descriptor. -/
def find (s : Fds β) (fd : Int) : Option Nat :=
  s.entries.findIdx? fun e => decide (e.fd = fd) && e.active

/-- `iox_fd_mod`. -/
def mod (s : Fds β) (fd : Int) (events : UInt32) : Bool × Fds β :=
  match s.find fd with
  | none => (false, s)
  | some i =>
    let set (e : FdEntry β) := { e with events, pevents := pollEventsFromIox events }
    (true, { s with entries := s.entries.modify i set })

/-- `iox_fd_remove`. -/
def remove (s : Fds β) (fd : Int) : Fds β :=
  match s.find fd with
  | none => s
  | some i =>
    if s.dispatching then
      -- defer removal until dispatch completes
      { s with entries := s.entries.modify i fun e => { e with active := false }
               compactNeeded := true }
    else { s with entries := swapRemove s.entries i }

/-- `compact`. -/
def compact (s : Fds β) : Fds β :=
  { s with compactNeeded := false, entries := prune FdEntry.active s.entries 0 }

def exec (s : Fds β) : FdCall β → Fds β × List FdEvent
  | .add fd events cb =>
    ((s.add fd events cb).2, if (s.add fd events cb).1 then [.added s.added fd] else [])
  | .mod fd events => ((s.mod fd events).2, [])
  | .remove fd =>
    (s.remove fd, ((s.find fd).bind (s.entries[·]?)).toList.map fun e => .removed e.serial)

def execAll (s : Fds β) : List (FdCall β) → Fds β × List FdEvent
  | [] => (s, [])
  | c :: cs => (((s.exec c).1.execAll cs).1, (s.exec c).2 ++ ((s.exec c).1.execAll cs).2)

/-- The loop of `iox_loop_poll` from entry `i` on: `n` entries with events are left, and `k`
callbacks ran. There are at most `ioxMaxFds` entries to look at. -/
def dispatchFrom (react : Nat → List (FdCall β)) :
    Nat → Nat → Nat → Nat → Fds β → Fds β × List FdEvent
  | 0, _, _, _, s => (s, [])
  | fuel + 1, i, n, k, s =>
    match s.entries[i]? with
    | none => (s, [])
    | some e =>
      if n = 0 then (s, [])
      else if e.revents = 0 then dispatchFrom react fuel (i + 1) n k s
      else if e.active = false then dispatchFrom react fuel (i + 1) (n - 1) k s
      else if ioxEventsFromPoll e.revents ≠ 0 ∧ e.cb.isSome then
        let c := s.execAll (react k)
        let rest := dispatchFrom react fuel (i + 1) (n - 1) (k + 1) c.1
        (rest.1, .called e.serial (ioxEventsFromPoll e.revents) :: (c.2 ++ rest.2))
      else dispatchFrom react fuel (i + 1) (n - 1) k s

/-- The entries with what the kernel reports for them. -/
def polled (s : Fds β) (answer : Nat → UInt16) : List (FdEntry β) :=
  s.entries.mapIdx fun i e => { e with revents := answer i }

/-- The number of entries with some event. -/
def ready (l : List (FdEntry β)) : Nat := l.countP fun e => e.revents ≠ 0

/-- `iox_loop_poll` up to the timers; no answer is the -1 of `poll`. -/
def poll (s : Fds β) (answer : Option (Nat → UInt16)) (react : Nat → List (FdCall β)) :
    Fds β × List FdEvent :=
  match answer with
  | none => (s, [])
  | some answer =>
    let l := s.polled answer
    let r := dispatchFrom react ioxMaxFds 0 (ready l) 0 { s with entries := l, dispatching := true }
    let s := { r.1 with dispatching := false }
    (if s.compactNeeded then s.compact else s, r.2)

end Fds

/-! ## The watchers and the history -/

/-- The watcher `k` was added and not removed. -/
def Watched (h : List FdEvent) (k : Nat) : Prop := (∃ fd, .added k fd ∈ h) ∧ .removed k ∉ h

/-- The table shows the watchers of a history in which only watchers are called. -/
structure Shows (h : List FdEvent) (s : Fds β) : Prop where
  room : s.entries.length ≤ ioxMaxFds
  serials : (s.entries.map FdEntry.serial).Nodup
  watched : ∀ k, (∃ e ∈ s.entries, e.serial = k ∧ e.active = true) ↔ Watched h k
  fresh : ∀ e ∈ s.entries, e.serial < s.added
  addedFresh : ∀ k fd, .added k fd ∈ h → k < s.added
  removedFresh : ∀ k, .removed k ∈ h → k < s.added
  stale : ∀ e ∈ s.entries, e.active = false → s.dispatching = true ∧ s.compactNeeded = true
  lawful : ∀ pre k ev post, h = pre ++ .called k ev :: post → Watched pre k

theorem lawful_append {h evs : List FdEvent}
    (hl : ∀ pre k ev post, h = pre ++ .called k ev :: post → Watched pre k)
    (hevs : ∀ k ev, .called k ev ∉ evs) :
    ∀ pre k ev post, h ++ evs = pre ++ .called k ev :: post → Watched pre k := by
  intro pre k ev post he
  rcases List.append_eq_append_iff.1 he with ⟨as, hpre, hevs'⟩ | ⟨bs, hh, hbs⟩
  · exact absurd (by rw [hevs']; simp) (hevs k ev)
  · cases bs with
    | nil => exact absurd (by rw [← List.nil_append evs, ← hbs]; simp) (hevs k ev)
    | cons b bs =>
      obtain ⟨hb, -⟩ := List.cons.inj hbs
      exact hl pre k ev bs (by rw [hh, hb])

theorem shows_init : Shows [] ({} : Fds β) where
  room := Nat.zero_le _
  serials := List.nodup_nil
  watched k := by simp [Watched]
  fresh := by simp
  addedFresh := by simp
  removedFresh := by simp
  stale := by simp
  lawful := by simp

theorem find_some {s : Fds β} {fd : Int} {i : Nat} (h : s.find fd = some i) :
    ∃ e, s.entries[i]? = some e ∧ e.fd = fd ∧ e.active = true := by
  obtain ⟨hi, hp, -⟩ := List.findIdx?_eq_some_iff_getElem.1 h
  simp only [Bool.and_eq_true, decide_eq_true_eq] at hp
  exact ⟨s.entries[i], List.getElem?_eq_getElem hi, hp⟩

theorem shows_add {h : List FdEvent} {s : Fds β} (hs : Shows h s) (fd : Int) (events : UInt32)
    (cb : Option β) : Shows (h ++ (s.exec (.add fd events cb)).2) (s.exec (.add fd events cb)).1 := by
  simp only [Fds.exec, Fds.add]
  by_cases hfull : ioxMaxFds ≤ s.entries.length
  · simp only [if_pos hfull, Bool.false_eq_true, if_false, List.append_nil]
    exact hs
  · simp only [if_neg hfull, if_true]
    have hnew : ∀ fd', .added s.added fd' ∉ h := fun fd' hm => (hs.addedFresh _ _ hm).false
    have hkept : .removed s.added ∉ h := fun hm => (hs.removedFresh _ hm).false
    constructor
    · simp; omega
    · rw [List.map_append, List.nodup_append]
      refine ⟨hs.serials, List.nodup_singleton _, fun k hk k' hk' heq => ?_⟩
      obtain ⟨e, he, hek⟩ := List.mem_map.1 hk
      obtain rfl : k' = s.added := by simpa using hk'
      exact (hs.fresh e he).ne (hek.trans heq)
    · intro k
      have := hs.watched k
      simp only [Watched, List.mem_append, List.mem_singleton, reduceCtorEq, or_false] at this ⊢
      constructor
      · intro ⟨e, he, hk, ha⟩
        rcases he with he | he
        · obtain ⟨⟨fd', hfd⟩, hr⟩ := this.1 ⟨e, he, hk, ha⟩
          exact ⟨⟨fd', .inl hfd⟩, hr⟩
        · subst he
          exact ⟨⟨fd, .inr (by rw [← hk])⟩, hk ▸ hkept⟩
      · intro ⟨⟨fd', hfd⟩, hr⟩
        rcases hfd with hfd | hfd
        · obtain ⟨e, he, hk, ha⟩ := this.2 ⟨⟨fd', hfd⟩, hr⟩
          exact ⟨e, .inl he, hk, ha⟩
        · exact ⟨_, .inr rfl, (FdEvent.added.inj hfd).1.symm, rfl⟩
    · intro e he
      rcases List.mem_append.1 he with he | he
      · exact (hs.fresh e he).trans (Nat.lt_succ_self _)
      · rw [List.mem_singleton.1 he]; exact Nat.lt_succ_self _
    · intro k fd' hm
      rcases List.mem_append.1 hm with hm | hm
      · exact (hs.addedFresh k fd' hm).trans (Nat.lt_succ_self _)
      · obtain ⟨rfl, -⟩ := FdEvent.added.inj (List.mem_singleton.1 hm)
        exact Nat.lt_succ_self _
    · intro k hm
      rcases List.mem_append.1 hm with hm | hm
      · exact (hs.removedFresh k hm).trans (Nat.lt_succ_self _)
      · simp at hm
    · intro e he hf
      rcases List.mem_append.1 he with he | he
      · exact hs.stale e he hf
      · rw [List.mem_singleton.1 he] at hf; simp at hf
    · exact lawful_append hs.lawful (by simp)

/-- A change of the table that keeps serials and the active watchers but `k`. -/
theorem shows_removed {h : List FdEvent} {s s' : Fds β} (hs : Shows h s) {k : Nat} (hk : k < s.added)
    (hroom : s'.entries.length ≤ s.entries.length)
    (hserials : (s'.entries.map FdEntry.serial).Nodup) (hadded : s'.added = s.added)
    (hfresh : ∀ e ∈ s'.entries, e.serial < s.added)
    (hactive : ∀ j, (∃ e ∈ s'.entries, e.serial = j ∧ e.active = true) ↔
      (∃ e ∈ s.entries, e.serial = j ∧ e.active = true) ∧ j ≠ k)
    (hstale : ∀ e ∈ s'.entries, e.active = false → s'.dispatching = true ∧ s'.compactNeeded = true) :
    Shows (h ++ [.removed k]) s' where
  room := hroom.trans hs.room
  serials := hserials
  watched j := by
    rw [hactive, hs.watched]
    simp only [Watched, List.mem_append, List.mem_singleton, reduceCtorEq, or_false,
      FdEvent.removed.injEq, not_or, and_assoc]
  fresh := by rw [hadded]; exact hfresh
  addedFresh := by
    intro j fd hm
    rw [hadded]
    exact hs.addedFresh j fd (by simpa using hm)
  removedFresh := by
    intro j hm
    rw [hadded]
    rcases List.mem_append.1 hm with hm | hm
    · exact hs.removedFresh j hm
    · rw [FdEvent.removed.inj (List.mem_singleton.1 hm)]; exact hk
  stale := hstale
  lawful := lawful_append hs.lawful (by simp)

/-- A change of the entry with one serial. -/
def FdEntry.at (k : Nat) (f : FdEntry β → FdEntry β) (e : FdEntry β) : FdEntry β :=
  if e.serial = k then f e else e

theorem modify_eq_map {l : List (FdEntry β)} {i : Nat} {e : FdEntry β} (hi : l[i]? = some e)
    (hn : (l.map FdEntry.serial).Nodup) (f : FdEntry β → FdEntry β) :
    l.modify i f = l.map (FdEntry.at e.serial f) := by
  obtain ⟨hlt, he⟩ := List.getElem?_eq_some_iff.1 hi
  refine List.ext_getElem (by simp) fun j hj hj' => ?_
  rw [List.length_modify] at hj
  rw [List.getElem_modify, List.getElem_map, FdEntry.at]
  by_cases hij : i = j
  · subst hij; rw [if_pos rfl, if_pos (by rw [he])]
  · rw [if_neg hij, if_neg]
    intro heq
    exact hij ((@List.Nodup.getElem_inj_iff _ _ hn i (by simpa using hlt) j (by simpa using hj)).1
      (by simp [he, heq]))

theorem shows_mod {h : List FdEvent} {s : Fds β} (hs : Shows h s) (fd : Int) (events : UInt32) :
    Shows (h ++ (s.exec (.mod fd events)).2) (s.exec (.mod fd events)).1 := by
  simp only [Fds.exec, Fds.mod, List.append_nil]
  cases hf : s.find fd with
  | none => exact hs
  | some i =>
    obtain ⟨e, hi, -, -⟩ := find_some hf
    simp only [modify_eq_map hi hs.serials]
    have hkeep : ∀ x : FdEntry β, (FdEntry.at e.serial (fun e =>
        { e with events, pevents := pollEventsFromIox events }) x).serial = x.serial ∧
        (FdEntry.at e.serial (fun e =>
        { e with events, pevents := pollEventsFromIox events }) x).active = x.active := by
      intro x; unfold FdEntry.at; split_ifs <;> exact ⟨rfl, rfl⟩
    generalize FdEntry.at e.serial (fun e => _) = g at hkeep ⊢
    refine { hs with room := by simpa using hs.room, serials := ?_, watched := fun k => ?_,
                     fresh := fun x hx => ?_, stale := fun x hx hxf => ?_ }
    · rw [List.map_map, show FdEntry.serial ∘ g = FdEntry.serial from funext fun x => (hkeep x).1]
      exact hs.serials
    · rw [← hs.watched]
      simp only [List.mem_map]
      constructor
      · intro ⟨_, ⟨x, hx, hgx⟩, hk, ha⟩
        subst hgx
        exact ⟨x, hx, (hkeep x).1 ▸ hk, (hkeep x).2 ▸ ha⟩
      · intro ⟨x, hx, hk, ha⟩
        exact ⟨g x, ⟨x, hx, rfl⟩, (hkeep x).1.trans hk, (hkeep x).2.trans ha⟩
    · obtain ⟨y, hy, hxy⟩ := List.mem_map.1 hx
      rw [← hxy, (hkeep y).1]
      exact hs.fresh y hy
    · obtain ⟨y, hy, hxy⟩ := List.mem_map.1 hx
      rw [← hxy, (hkeep y).2] at hxf
      exact hs.stale y hy hxf

theorem shows_remove {h : List FdEvent} {s : Fds β} (hs : Shows h s) (fd : Int) :
    Shows (h ++ (s.exec (.remove fd)).2) (s.exec (.remove fd)).1 := by
  simp only [Fds.exec, Fds.remove]
  cases hf : s.find fd with
  | none => simpa using hs
  | some i =>
    obtain ⟨e, hi, -, -⟩ := find_some hf
    obtain ⟨hlt, he⟩ := List.getElem?_eq_some_iff.1 hi
    have hmem : e ∈ s.entries := List.mem_of_getElem? hi
    simp only [Option.bind_some, hi, Option.toList_some, List.map_cons, List.map_nil]
    split_ifs with hdisp
    · simp only [modify_eq_map hi hs.serials]
      have hser : ∀ x : FdEntry β, (FdEntry.at e.serial (fun e => { e with active := false })
          x).serial = x.serial := by
        intro x; unfold FdEntry.at; split_ifs <;> rfl
      refine shows_removed hs (hs.fresh e hmem) (by simp) ?_ rfl (fun x hx => ?_) (fun j => ?_)
        fun x _ _ => ⟨hdisp, rfl⟩
      · rw [List.map_map, show FdEntry.serial ∘ _ = FdEntry.serial from funext hser]
        exact hs.serials
      · obtain ⟨y, hy, hxy⟩ := List.mem_map.1 hx
        rw [← hxy, hser]
        exact hs.fresh y hy
      · constructor
        · intro ⟨x, hx, hj, ha⟩
          obtain ⟨y, hy, hxy⟩ := List.mem_map.1 hx
          by_cases hye : y.serial = e.serial
          · rw [← hxy, FdEntry.at, if_pos hye] at ha
            simp at ha
          · rw [FdEntry.at, if_neg hye] at hxy
            subst hxy
            exact ⟨⟨y, hy, hj, ha⟩, hj ▸ hye⟩
        · intro ⟨⟨x, hx, hj, ha⟩, hne⟩
          refine ⟨x, List.mem_map.2 ⟨x, hx, ?_⟩, hj, ha⟩
          rw [FdEntry.at, if_neg (hj ▸ hne)]
    · have hperm := perm_swapRemove hlt
      rw [he] at hperm
      have hnd : (e.serial :: (swapRemove s.entries i).map FdEntry.serial).Nodup := by
        have := (hperm.map FdEntry.serial).nodup_iff.2 hs.serials
        rwa [List.map_cons] at this
      have hsub : ∀ x ∈ swapRemove s.entries i, x ∈ s.entries :=
        fun x hx => hperm.mem_iff.1 (.tail _ hx)
      refine shows_removed hs (hs.fresh e hmem) (by simp) (List.nodup_cons.1 hnd).2 rfl
        (fun x hx => hs.fresh x (hsub x hx)) (fun j => ?_)
        fun x hx hxf => absurd (hs.stale x (hsub x hx) hxf).1 hdisp
      constructor
      · intro ⟨x, hx, hj, ha⟩
        refine ⟨⟨x, hsub x hx, hj, ha⟩, fun hje => (List.nodup_cons.1 hnd).1 ?_⟩
        rw [← hje, ← hj]
        exact List.mem_map_of_mem hx
      · intro ⟨⟨x, hx, hj, ha⟩, hne⟩
        refine ⟨x, (List.mem_cons.1 (hperm.mem_iff.2 hx)).resolve_left fun hxe => ?_, hj, ha⟩
        exact hne (hj ▸ hxe ▸ rfl)

theorem shows_exec {h : List FdEvent} {s : Fds β} (hs : Shows h s) (c : FdCall β) :
    Shows (h ++ (s.exec c).2) (s.exec c).1 := by
  cases c with
  | add fd events cb => exact shows_add hs fd events cb
  | mod fd events => exact shows_mod hs fd events
  | remove fd => exact shows_remove hs fd

theorem shows_execAll {h : List FdEvent} {s : Fds β} (hs : Shows h s) (cs : List (FdCall β)) :
    Shows (h ++ (s.execAll cs).2) (s.execAll cs).1 := by
  induction cs generalizing h s with
  | nil => simpa [Fds.execAll] using hs
  | cons c cs ih =>
    rw [Fds.execAll, ← List.append_assoc]
    exact ih (shows_exec hs c)

/-! ## One poll -/

/-- What no call changes of an entry: its serial, what the kernel reported, its callback. -/
def FdEntry.frame (e : FdEntry β) : Nat × UInt16 × Option β := (e.serial, e.revents, e.cb)

/-- The call that an entry asks for. -/
def wanted : Nat × UInt16 × Option β → Option (Nat × UInt32)
  | (serial, revents, cb) =>
    if ioxEventsFromPoll revents ≠ 0 ∧ cb.isSome then some (serial, ioxEventsFromPoll revents)
    else none

def FdEvent.call : FdEvent → Option (Nat × UInt32)
  | .called serial ev => some (serial, ev)
  | _ => none

/-- The callbacks that ran, in order. -/
def callsOf (evs : List FdEvent) : List (Nat × UInt32) := evs.filterMap FdEvent.call

/-- From `s` to `s'` with the events `evs`: no callback ran, and entries were only added. -/
structure Grows (s s' : Fds β) (evs : List FdEvent) : Prop where
  calls : callsOf evs = []
  dispatching : s'.dispatching = s.dispatching
  frames : ∃ new : List (Nat × UInt16 × Option β),
    s'.entries.map FdEntry.frame = s.entries.map FdEntry.frame ++ new ∧ ∀ f ∈ new, f.2.1 = 0

theorem Grows.refl (s : Fds β) : Grows s s [] := ⟨rfl, rfl, [], by simp, by simp⟩

theorem Grows.trans {s s' s'' : Fds β} {evs evs' : List FdEvent} (h : Grows s s' evs)
    (h' : Grows s' s'' evs') : Grows s s'' (evs ++ evs') where
  calls := by
    have h1 := h.calls
    have h2 := h'.calls
    unfold callsOf at h1 h2 ⊢
    rw [List.filterMap_append, h1, h2]
    rfl
  dispatching := h'.dispatching.trans h.dispatching
  frames := by
    obtain ⟨new, he, hz⟩ := h.frames
    obtain ⟨new', he', hz'⟩ := h'.frames
    refine ⟨new ++ new', by rw [he', he, List.append_assoc], fun f hf => ?_⟩
    exact (List.mem_append.1 hf).elim (hz f) (hz' f)

theorem map_frame_modify {f : FdEntry β → FdEntry β} (hf : ∀ e, (f e).frame = e.frame)
    (l : List (FdEntry β)) (i : Nat) : (l.modify i f).map FdEntry.frame = l.map FdEntry.frame := by
  refine List.ext_getElem (by simp) fun j hj hj' => ?_
  rw [List.getElem_map, List.getElem_map, List.getElem_modify]
  split_ifs <;> simp [hf]

theorem grows_exec {s : Fds β} (hd : s.dispatching = true) (c : FdCall β) :
    Grows s (s.exec c).1 (s.exec c).2 := by
  cases c with
  | add fd events cb =>
    simp only [Fds.exec, Fds.add]
    by_cases hfull : ioxMaxFds ≤ s.entries.length
    · simp only [if_pos hfull]
      exact .refl s
    · simp only [if_neg hfull]
      exact ⟨rfl, rfl, _, List.map_append, by simp [FdEntry.frame]⟩
  | mod fd events =>
    simp only [Fds.exec, Fds.mod]
    cases s.find fd with
    | none => exact .refl s
    | some i =>
      refine ⟨rfl, rfl, [], ?_, by simp⟩
      rw [List.append_nil]
      exact map_frame_modify (by intro _; rfl) _ i
  | remove fd =>
    simp only [Fds.exec, Fds.remove]
    cases s.find fd with
    | none => exact .refl s
    | some i =>
      simp only [hd, if_true, Option.bind_some]
      refine ⟨by cases s.entries[i]? <;> rfl, hd ▸ rfl, [], ?_, by simp⟩
      rw [List.append_nil]
      exact map_frame_modify (by intro _; rfl) _ i

theorem grows_execAll {s : Fds β} (hd : s.dispatching = true) (cs : List (FdCall β)) :
    Grows s (s.execAll cs).1 (s.execAll cs).2 := by
  induction cs generalizing s with
  | nil => exact .refl s
  | cons c cs ih =>
    have h := grows_exec hd c
    exact h.trans (ih (h.dispatching.trans hd))

theorem shows_called {h : List FdEvent} {s : Fds β} (hs : Shows h s) {k : Nat} {ev : UInt32}
    (hk : Watched h k) : Shows (h ++ [.called k ev]) s where
  room := hs.room
  serials := hs.serials
  watched j := by rw [hs.watched]; simp [Watched]
  fresh := hs.fresh
  addedFresh j fd hm := hs.addedFresh j fd (by simpa using hm)
  removedFresh j hm := hs.removedFresh j (by simpa using hm)
  stale := hs.stale
  lawful := by
    intro pre j ev' post he
    rcases List.eq_nil_or_concat post with hp | ⟨post', x, hp⟩
    · subst hp
      obtain ⟨h1, h2⟩ := List.append_inj' he rfl
      obtain ⟨rfl, -⟩ := FdEvent.called.inj (List.cons.inj h2).1
      exact h1 ▸ hk
    · rw [List.concat_eq_append] at hp
      subst hp
      rw [← List.cons_append, ← List.append_assoc] at he
      exact hs.lawful pre j ev' post' (List.append_inj' he rfl).1

/-- The entries that are left to look at, as frames. -/
def Fds.left (s : Fds β) (i : Nat) : List (Nat × UInt16 × Option β) :=
  (s.entries.drop i).map FdEntry.frame

theorem left_eq_cons {s : Fds β} {i : Nat} {e : FdEntry β} (he : s.entries[i]? = some e) :
    s.left i = e.frame :: s.left (i + 1) := by
  obtain ⟨hlt, heq⟩ := List.getElem?_eq_some_iff.1 he
  rw [Fds.left, List.drop_eq_getElem_cons hlt, heq]
  rfl

theorem ready_drop (s : Fds β) (i : Nat) :
    Fds.ready (s.entries.drop i) = (s.left i).countP fun f => f.2.1 ≠ 0 := by
  rw [Fds.ready, Fds.left, List.countP_map]
  rfl

theorem wanted_silent {f : Nat × UInt16 × Option β} (h : f.2.1 = 0) : wanted f = none := by
  obtain ⟨serial, revents, cb⟩ := f
  obtain rfl : revents = 0 := h
  have hev : ioxEventsFromPoll 0 = 0 := by decide
  simp [wanted, hev]

/-- The entries of an inactive watcher do not count as watched. -/
theorem Shows.not_watched {h : List FdEvent} {s : Fds β} (hs : Shows h s) {e : FdEntry β}
    (he : e ∈ s.entries) (ha : e.active = false) : ¬ Watched h e.serial := by
  intro hw
  obtain ⟨e', he', hk, ha'⟩ := (hs.watched e.serial).2 hw
  have := List.inj_on_of_nodup_map hs.serials he' he hk
  rw [this, ha] at ha'
  exact Bool.false_ne_true ha'

/-- What a dispatch does that has the entries from `i` on before it: it calls what they ask for, in
their order, and passes over a watcher only when a callback has removed it. -/
structure Dispatches (h : List FdEvent) (s : Fds β) (i : Nat) (r : Fds β × List FdEvent) :
    Prop where
  shows : Shows (h ++ r.2) r.1
  dispatching : r.1.dispatching = true
  calls : (callsOf r.2).Sublist ((s.left i).filterMap wanted)
  all : ∀ f ∈ s.left i, ∀ c, wanted f = some c → Watched h f.1 →
    c ∈ callsOf r.2 ∨ .removed f.1 ∈ r.2

section
variable {h : List FdEvent} {s s' : Fds β} {i : Nat} {e : FdEntry β} {evs : List FdEvent}
  {r : Fds β × List FdEvent}

/-- No entry is left that asks for a call. -/
theorem Dispatches.stop (hs : Shows h s) (hd : s.dispatching = true)
    (hno : ∀ f ∈ s.left i, wanted f = none) : Dispatches h s i (s, []) where
  shows := by rwa [List.append_nil]
  dispatching := hd
  calls := List.nil_sublist _
  all f hf c hc := by rw [hno f hf] at hc; cases hc

/-- An entry is passed over that asks for no call, or whose watcher is gone. -/
theorem Dispatches.skip (he : s.entries[i]? = some e)
    (hno : wanted e.frame = none ∨ ¬ Watched h e.serial) (hr : Dispatches h s (i + 1) r) :
    Dispatches h s i r where
  shows := hr.shows
  dispatching := hr.dispatching
  calls := by
    rw [left_eq_cons he, List.filterMap_cons]
    split
    · exact hr.calls
    · exact hr.calls.cons _
  all f hf c hc hw := by
    rw [left_eq_cons he, List.mem_cons] at hf
    rcases hf with hf | hf
    · subst hf
      rcases hno with hno | hno
      · rw [hno] at hc; cases hc
      · exact absurd hw hno
    · exact hr.all f hf c hc hw

/-- The entries that a callback adds ask for no call before the next poll. -/
theorem Grows.left (hg : Grows s s' evs) (hi : i ≤ s.entries.length) :
    ∃ new : List (Nat × UInt16 × Option β), s'.left i = s.left i ++ new ∧ ∀ f ∈ new, f.2.1 = 0 := by
  obtain ⟨new, hnew, hzero⟩ := hg.frames
  refine ⟨new, ?_, hzero⟩
  rw [Fds.left, Fds.left, List.map_drop, hnew,
    List.drop_append_of_le_length (by rwa [List.length_map]), List.map_drop]

theorem Grows.ready (hg : Grows s s' evs) (hi : i ≤ s.entries.length) :
    Fds.ready (s'.entries.drop i) = Fds.ready (s.entries.drop i) := by
  obtain ⟨new, hleft, hzero⟩ := hg.left hi
  have hnone : new.countP (fun f => f.2.1 ≠ 0) = 0 :=
    List.countP_eq_zero.2 fun f hf => by simpa using hzero f hf
  rw [ready_drop, ready_drop, hleft, List.countP_append, hnone, Nat.add_zero]

/-- An entry's callback runs and makes the calls `evs`, and the dispatch goes on after it. -/
theorem Dispatches.called (he : s.entries[i]? = some e) {c : Nat × UInt32}
    (hwant : wanted e.frame = some c) (hg : Grows s s' evs)
    (hr : Dispatches (h ++ [.called c.1 c.2] ++ evs) s' (i + 1) r) :
    Dispatches h s i (r.1, .called c.1 c.2 :: (evs ++ r.2)) := by
  obtain ⟨new, hleft, hzero⟩ := hg.left (List.getElem?_eq_some_iff.1 he).1
  have hcalls : callsOf (.called c.1 c.2 :: (evs ++ r.2)) = c :: callsOf r.2 := by
    have hnone := hg.calls
    unfold callsOf at hnone ⊢
    simp [FdEvent.call, hnone]
  refine ⟨?_, hr.dispatching, ?_, fun f hf x hx hw => ?_⟩
  · simpa only [List.append_assoc, List.cons_append, List.nil_append] using hr.shows
  · have hsub := hr.calls
    rw [hleft, List.filterMap_append,
      List.filterMap_eq_nil_iff.2 fun f hf => wanted_silent (hzero f hf), List.append_nil] at hsub
    rw [hcalls, left_eq_cons he, List.filterMap_cons, hwant]
    exact hsub.cons_cons _
  · rw [hcalls]
    rw [left_eq_cons he, List.mem_cons] at hf
    rcases hf with hf | hf
    · subst hf
      rw [hwant] at hx
      exact .inl (by rw [← Option.some.inj hx]; exact List.mem_cons_self)
    · by_cases hrem : .removed f.1 ∈ evs
      · exact .inr (.tail _ (List.mem_append_left _ hrem))
      · have hstill : Watched (h ++ [.called c.1 c.2] ++ evs) f.1 := by
          obtain ⟨⟨fd, hfd⟩, hkept⟩ := hw
          exact ⟨⟨fd, by simp [hfd]⟩, by simp [hkept, hrem]⟩
        rcases hr.all f (by rw [hleft]; exact List.mem_append_left _ hf) x hx hstill with hy | hy
        · exact .inl (.tail _ hy)
        · exact .inr (.tail _ (List.mem_append_right _ hy))

end

/-- The count of ready entries goes down with each one that is passed, so the loop does not stop
before the last of them. -/
theorem dispatchFrom_spec (react : Nat → List (FdCall β)) (fuel : Nat) :
    ∀ (i k : Nat) {h : List FdEvent} {s : Fds β}, Shows h s → s.dispatching = true →
      ioxMaxFds ≤ i + fuel →
      Dispatches h s i (Fds.dispatchFrom react fuel i (Fds.ready (s.entries.drop i)) k s) := by
  induction fuel with
  | zero =>
    intro i k h s hs hd hi
    refine .stop hs hd fun f hf => ?_
    have hend : s.entries.length ≤ i := hs.room.trans hi
    rw [Fds.left, List.drop_eq_nil_of_le hend] at hf
    cases hf
  | succ fuel ih =>
    intro i k h s hs hd hi
    simp only [Fds.dispatchFrom]
    cases he : s.entries[i]? with
    | none =>
      refine .stop hs hd fun f hf => ?_
      rw [Fds.left, List.drop_eq_nil_of_le (List.getElem?_eq_none_iff.1 he)] at hf
      cases hf
    | some e =>
      have hcount : Fds.ready (s.entries.drop i) =
          Fds.ready (s.entries.drop (i + 1)) + if e.revents ≠ 0 then 1 else 0 := by
        simp only [ready_drop, left_eq_cons he, List.countP_cons, FdEntry.frame, decide_eq_true_eq]
      by_cases hn : Fds.ready (s.entries.drop i) = 0
      · simp only [hn, if_true]
        refine .stop hs hd fun f hf => wanted_silent ?_
        rw [ready_drop, List.countP_eq_zero] at hn
        simpa using hn f hf
      simp only [if_neg hn]
      by_cases hr : e.revents = 0
      · have hsame : Fds.ready (s.entries.drop i) = Fds.ready (s.entries.drop (i + 1)) := by
          rw [hcount, if_neg (by simpa using hr), Nat.add_zero]
        rw [hsame, if_pos hr]
        exact .skip he (.inl (wanted_silent hr)) (ih (i + 1) k hs hd (by omega))
      have hless : Fds.ready (s.entries.drop i) - 1 = Fds.ready (s.entries.drop (i + 1)) := by
        rw [hcount, if_pos hr, Nat.add_sub_cancel]
      rw [hless, if_neg hr]
      by_cases ha : e.active = false
      · rw [if_pos ha]
        exact .skip he (.inr (hs.not_watched (List.mem_of_getElem? he) ha))
          (ih (i + 1) k hs hd (by omega))
      rw [if_neg ha]
      by_cases hw : ioxEventsFromPoll e.revents ≠ 0 ∧ e.cb.isSome = true
      · rw [if_pos hw]
        have hwatched : Watched h e.serial :=
          (hs.watched e.serial).1 ⟨e, List.mem_of_getElem? he, rfl, by simpa using ha⟩
        have hg := grows_execAll hd (react k)
        have hcalled : Shows (h ++ [.called e.serial (ioxEventsFromPoll e.revents)]) s :=
          shows_called hs hwatched
        have hrest := ih (i + 1) (k + 1) (shows_execAll hcalled (react k))
          (hg.dispatching.trans hd) (by omega)
        rw [hg.ready (List.getElem?_eq_some_iff.1 he).1] at hrest
        exact .called he (if_pos hw) hg hrest
      · rw [if_neg hw]
        exact .skip he (.inl (if_neg hw)) (ih (i + 1) k hs hd (by omega))

/-! ## Runs -/

inductive FdOp (β : Type)
  | call (c : FdCall β)
  | poll (answer : Option (Nat → UInt16)) (react : Nat → List (FdCall β))

/-- The table after an operation, and the history with what it did. -/
def fdsStep (s : Fds β × List FdEvent) : FdOp β → Fds β × List FdEvent
  | .call c => ((s.1.exec c).1, s.2 ++ (s.1.exec c).2)
  | .poll answer react => ((s.1.poll answer react).1, s.2 ++ (s.1.poll answer react).2)

def fdsRun (ops : List (FdOp β)) : Fds β × List FdEvent := run fdsStep ({}, []) ops

theorem shows_polled {h : List FdEvent} {s : Fds β} (hs : Shows h s)
    (hall : ∀ e ∈ s.entries, e.active = true) (answer : Nat → UInt16) :
    Shows h { s with entries := s.polled answer, dispatching := true } := by
  have hmem : ∀ x, x ∈ s.polled answer ↔
      ∃ i, ∃ hi : i < s.entries.length, { s.entries[i] with revents := answer i } = x := by
    intro x; simp only [Fds.polled, List.mem_mapIdx]
  have hmap : (s.polled answer).map FdEntry.serial = s.entries.map FdEntry.serial := by
    refine List.ext_getElem (by simp [Fds.polled]) fun i _ _ => ?_
    simp [Fds.polled]
  refine { hs with room := by simpa [Fds.polled] using hs.room, serials := ?_,
                   watched := fun k => ?_, fresh := fun x hx => ?_, stale := fun x hx hf => ?_ }
  · rw [hmap]; exact hs.serials
  · rw [← hs.watched]
    constructor
    · intro ⟨x, hx, hk, ha⟩
      obtain ⟨i, hi, hxi⟩ := (hmem x).1 hx
      subst hxi
      exact ⟨s.entries[i], List.getElem_mem hi, hk, ha⟩
    · intro ⟨x, hx, hk, ha⟩
      obtain ⟨i, hi, hxi⟩ := List.mem_iff_getElem.1 hx
      subst hxi
      exact ⟨_, (hmem _).2 ⟨i, hi, rfl⟩, hk, ha⟩
  · obtain ⟨i, hi, hxi⟩ := (hmem x).1 hx
    subst hxi
    exact hs.fresh s.entries[i] (List.getElem_mem hi)
  · obtain ⟨i, hi, hxi⟩ := (hmem x).1 hx
    subst hxi
    exact absurd (hall _ (List.getElem_mem hi)) (by simpa using hf)

/-- After the dispatch the inactive entries go. -/
theorem shows_compacted {h : List FdEvent} {s : Fds β} (hs : Shows h s) :
    let s' := if s.compactNeeded then ({ s with dispatching := false } : Fds β).compact
      else { s with dispatching := false }
    Shows h s' ∧ (∀ e ∈ s'.entries, e.active = true) ∧ s'.dispatching = false := by
  intro s'
  by_cases hc : s.compactNeeded = true
  · have hs' : s' = ({ s with dispatching := false } : Fds β).compact := if_pos hc
    rw [hs']
    have hperm := prune_perm FdEntry.active s.entries 0 (by simp)
    have hmem : ∀ e, e ∈ prune FdEntry.active s.entries 0 ↔ e ∈ s.entries ∧ e.active = true :=
      fun e => hperm.mem_iff.trans List.mem_filter
    refine ⟨{ hs with room := ?_, serials := ?_, watched := fun k => ?_, fresh := fun e he => ?_,
                      stale := fun e he hf => ?_ }, fun e he => ((hmem e).1 he).2, rfl⟩
    · exact hperm.length_eq.trans_le ((List.length_filter_le _ _).trans hs.room)
    · exact (hperm.map _).nodup_iff.2 (hs.serials.sublist (List.filter_sublist.map _))
    · rw [← hs.watched]
      constructor
      · intro ⟨e, he, hk, ha⟩
        exact ⟨e, ((hmem e).1 he).1, hk, ha⟩
      · intro ⟨e, he, hk, ha⟩
        exact ⟨e, (hmem e).2 ⟨he, ha⟩, hk, ha⟩
    · exact hs.fresh e ((hmem e).1 he).1
    · rw [((hmem e).1 he).2] at hf
      cases hf
  · have hs' : s' = { s with dispatching := false } := if_neg hc
    have hall : ∀ e ∈ s.entries, e.active = true := fun e he => by
      by_contra hf
      exact hc (hs.stale e he (by simpa using hf)).2
    rw [hs']
    refine ⟨{ hs with stale := fun e he hf => ?_ }, hall, rfl⟩
    rw [hall e he] at hf
    cases hf

/-- Between two polls every entry is active. -/
structure Settled (s : Fds β × List FdEvent) : Prop where
  shows : Shows s.2 s.1
  idle : s.1.dispatching = false

theorem Settled.active {s : Fds β × List FdEvent} (h : Settled s) :
    ∀ e ∈ s.1.entries, e.active = true := by
  intro e he
  by_contra hf
  have := (h.shows.stale e he (by simpa using hf)).1
  rw [h.idle] at this
  cases this

theorem exec_dispatching (s : Fds β) (c : FdCall β) :
    (s.exec c).1.dispatching = s.dispatching := by
  cases c with
  | add fd events cb =>
    simp only [Fds.exec, Fds.add]
    split_ifs <;> rfl
  | mod fd events =>
    simp only [Fds.exec, Fds.mod]
    split <;> rfl
  | remove fd =>
    simp only [Fds.exec, Fds.remove]
    split
    · rfl
    · split_ifs <;> rfl

theorem settled_run (ops : List (FdOp β)) : Settled (fdsRun ops) := by
  refine run_invariant (I := Settled) ?_ ⟨shows_init, rfl⟩ (along_true ops)
  intro s op h _
  cases op with
  | call c => exact ⟨shows_exec h.shows c, (exec_dispatching s.1 c).trans h.idle⟩
  | poll answer react =>
    cases answer with
    | none => exact ⟨by simpa [fdsStep, Fds.poll] using h.shows, h.idle⟩
    | some answer =>
      have hdone := dispatchFrom_spec react ioxMaxFds 0 0
        (shows_polled h.shows h.active answer) rfl (by omega)
      obtain ⟨h1, -, h3⟩ := shows_compacted hdone.shows
      exact ⟨h1, h3⟩

/-- **The watchers are exact.** In every run of calls and polls, with callbacks that add, change and
remove watchers while a dispatch is under way: only a watcher that was added and not removed since
is called; and between polls the table holds just those, each once. -/
theorem watchers_exact (ops : List (FdOp β)) :
    (∀ pre k ev post, (fdsRun ops).2 = pre ++ .called k ev :: post → Watched pre k) ∧
    (∀ k, k ∈ (fdsRun ops).1.entries.map FdEntry.serial ↔ Watched (fdsRun ops).2 k) ∧
    ((fdsRun ops).1.entries.map FdEntry.serial).Nodup ∧
    (fdsRun ops).1.entries.length ≤ ioxMaxFds := by
  have h := settled_run ops
  refine ⟨h.shows.lawful, fun k => ?_, h.shows.serials, h.shows.room⟩
  rw [← h.shows.watched, List.mem_map]
  constructor
  · intro ⟨e, he, hk⟩
    exact ⟨e, he, hk, h.active e he⟩
  · intro ⟨e, he, hk, _⟩
    exact ⟨e, he, hk⟩

/-- **A poll calls what is ready.** In every run, whatever the callbacks do: a poll calls each
watcher at most once, with the events the kernel reports for it, and calls every watcher with a
callback that is ready, unless a callback removed it before. -/
theorem poll_calls_ready (ops : List (FdOp β)) (answer : Nat → UInt16)
    (react : Nat → List (FdCall β)) :
    ((callsOf ((fdsRun ops).1.poll (some answer) react).2).map Prod.fst).Nodup ∧
    (∀ c ∈ callsOf ((fdsRun ops).1.poll (some answer) react).2, ∃ i e,
      (fdsRun ops).1.entries[i]? = some e ∧ c = (e.serial, ioxEventsFromPoll (answer i)) ∧
      c.2 ≠ 0 ∧ e.cb.isSome) ∧
    (∀ i e, (fdsRun ops).1.entries[i]? = some e → ioxEventsFromPoll (answer i) ≠ 0 → e.cb.isSome →
      (e.serial, ioxEventsFromPoll (answer i)) ∈
        callsOf ((fdsRun ops).1.poll (some answer) react).2 ∨
      .removed e.serial ∈ ((fdsRun ops).1.poll (some answer) react).2) := by
  have h := settled_run ops
  generalize fdsRun ops = s at h ⊢
  have hp := shows_polled h.shows h.active answer
  have hdone := dispatchFrom_spec react ioxMaxFds 0 0 hp rfl (by omega)
  have hsub := hdone.calls
  have hall := hdone.all
  simp only [List.drop_zero] at hsub hall
  have hframe : ∀ f, f ∈ Fds.left { s.1 with entries := s.1.polled answer, dispatching := true } 0 ↔
      ∃ i e, s.1.entries[i]? = some e ∧ f = (e.serial, answer i, e.cb) := by
    intro f
    simp only [Fds.left, List.drop_zero, List.mem_map, Fds.polled, List.mem_mapIdx]
    constructor
    · intro ⟨x, ⟨i, hi, hx⟩, hf⟩
      exact ⟨i, s.1.entries[i], List.getElem?_eq_getElem hi, by rw [← hf, ← hx]; rfl⟩
    · intro ⟨i, e, he, hf⟩
      obtain ⟨hi, hei⟩ := List.getElem?_eq_some_iff.1 he
      exact ⟨_, ⟨i, hi, rfl⟩, by rw [hf, ← hei]; rfl⟩
  refine ⟨?_, fun c hc => ?_, fun i e he hev hcb => ?_⟩
  · have hserials : ∀ l : List (Nat × UInt16 × Option β), ((l.filterMap wanted).map Prod.fst).Sublist
        (l.map Prod.fst) := by
      intro l
      induction l with
      | nil => exact List.Sublist.refl _
      | cons f l ih =>
        rw [List.filterMap_cons, List.map_cons]
        split
        · exact ih.cons _
        · next c hc =>
          have hfst : c.1 = f.1 := by
            obtain ⟨serial, revents, cb⟩ := f
            simp only [wanted] at hc
            split_ifs at hc
            rw [← Option.some.inj hc]
          rw [List.map_cons, hfst]
          exact ih.cons_cons _
    refine List.Nodup.sublist ((hsub.map Prod.fst).trans (hserials _)) ?_
    simp only [Fds.left, List.drop_zero, List.map_map]
    exact hp.serials
  · obtain ⟨f, hf, hwant⟩ := List.mem_filterMap.1 (hsub.subset hc)
    obtain ⟨i, e, he, hfe⟩ := (hframe f).1 hf
    subst hfe
    simp only [wanted] at hwant
    split_ifs at hwant with hw
    have := Option.some.inj hwant
    subst this
    exact ⟨i, e, he, rfl, hw⟩
  · have hw := (h.shows.watched e.serial).1
      ⟨e, List.mem_of_getElem? he, rfl, h.active e (List.mem_of_getElem? he)⟩
    exact hall _ ((hframe _).2 ⟨i, e, he, rfl⟩) _ (if_pos ⟨hev, hcb⟩) hw

end

end Netchan.Iox
