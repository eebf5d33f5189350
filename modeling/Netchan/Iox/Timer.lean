import Netchan.Iox.Pq
import Netchan.Lib.Run

/-!
# The timers of the event loop

`examples/iox/iox_timer.c`: one-shot timers in a priority queue ordered by deadline.

* `now_ns` is an argument of the call that reads the clock. It counts nanoseconds since boot in an
  `int64_t`, which does not overflow here. `next_id` is an `int` and wraps: ids are distinct as long
  as there are fewer than 2^31 calls of `iox_timer_add`.
* A callback is the application's. It runs in the middle of `iox_timer_dispatch` and may arm and
  remove timers: `react k` is what the `k`-th callback of a dispatch does.
* A dispatch whose callbacks arm timers that are due at once does not end; `fuel` bounds the
  callbacks that are looked at, and `dispatch` says whether the loop ended.
-/

namespace Netchan.Iox

open Lib Lib.Heap

abbrev ioxMaxTimers : Nat := 16

/-- `struct iox_timer_entry`; `cb` is the callback with its argument, `none` for `NULL`. -/
structure TimerEntry (β : Type) where
  deadlineNs : Int
  cb : Option β
  id : Int

/-- `PQ_COMPARE` of `timer_pq`. -/
def later {β : Type} (a b : TimerEntry β) : Bool := decide (b.deadlineNs < a.deadlineNs)

theorem strictWeak_later {β : Type} : StrictWeak (later (β := β)) :=
  .of_key TimerEntry.deadlineNs

/-- The indices below `(int)timer_pq_size(&timers)`. -/
def scanned (nr : Nat) : List Nat := List.range ((nr : Int).bmod (2 ^ 32)).toNat

/-- The static variables of the file. -/
structure Timers (β : Type) where
  timers : Pq (TimerEntry β)
  nextId : Int
  initialized : Bool

section
variable {β : Type}

namespace Timers

/-- `iox_timer_init`, the first time. -/
def init (calloc : Bool) : Timers β :=
  { timers := (Pq.init ioxMaxTimers calloc ⟨0, none, 0⟩).2, nextId := 0, initialized := true }

/-- `iox_timer_add`; `none` is the -1 of a failure. -/
def add (s : Timers β) (now ms : Int) (cb : Option β) (realloc : Bool) : Option Int × Timers β :=
  if s.initialized = false then (none, s)
  else
    let e : TimerEntry β := ⟨now + ms * 1000000, cb, s.nextId⟩
    let s := { s with nextId := (s.nextId + 1).bmod (2 ^ 32) }
    let r := s.timers.enqueue later e
    if r.1 then (some e.id, { s with timers := r.2 })
    else
      -- queue full: try to grow
      let g := r.2.resize (r.2.max * 2 % 2 ^ 32) realloc
      if g.1 = false then (none, { s with timers := g.2 })
      else
        let r := g.2.enqueue later e
        (if r.1 then some e.id else none, { s with timers := r.2 })

/-- `iox_timer_remove`. -/
def remove (s : Timers β) (id : Int) : Timers β :=
  if s.initialized = false then s
  else
    match (scanned s.timers.nr).find? fun i => (s.timers.entry i).id = id with
    | none => s
    | some i => { s with timers := (s.timers.remove later i).2 }

/-- `iox_timer_next_ms`: the milliseconds until the first deadline, rounded up, or -1. -/
def nextMs (s : Timers β) (now : Int) : Int :=
  if s.initialized = false then -1
  else
    match s.timers.top with
    | none => -1
    | some top =>
      let diff := (top.deadlineNs - now + 999999).tdiv 1000000
      let diff := if diff < 0 then 0 else diff
      if 0x7FFFFFFF < diff then 0x7FFFFFFF else diff

end Timers

/-! ## What an observer sees -/

inductive TimerCall (β : Type)
  | add (now ms : Int) (cb : Option β) (realloc : Bool)
  | remove (id : Int)

inductive TimerEvent (β : Type)
  | armed (e : TimerEntry β)
  /-- `iox_timer_add` failed. -/
  | refused
  | removed (id : Int)
  /-- `iox_timer_dispatch` at time `t` took the timer out and called its callback. -/
  | fired (e : TimerEntry β) (t : Int)

namespace Timers

def exec (s : Timers β) : TimerCall β → Timers β × List (TimerEvent β)
  | .add now ms cb realloc =>
    let r := s.add now ms cb realloc
    (r.2, [if r.1.isSome then .armed ⟨now + ms * 1000000, cb, s.nextId⟩ else .refused])
  | .remove id => (s.remove id, [.removed id])

def execAll (s : Timers β) : List (TimerCall β) → Timers β × List (TimerEvent β)
  | [] => (s, [])
  | c :: cs => (((s.exec c).1.execAll cs).1, (s.exec c).2 ++ ((s.exec c).1.execAll cs).2)

/-- The queue after its first entry is taken out. -/
def popped (s : Timers β) : Timers β := { s with timers := (s.timers.dequeue later).2 }

/-- What the callback of an entry does, if it has one. -/
def called (s : Timers β) (react : Nat → List (TimerCall β)) (k : Nat) (e : TimerEntry β) :
    Timers β × List (TimerEvent β) :=
  if e.cb.isSome then s.execAll (react k) else (s, [])

/-- The loop of `iox_timer_dispatch`: the state, what happened, and whether the loop ended. -/
def dispatchLoop (t : Int) (react : Nat → List (TimerCall β)) :
    Nat → Nat → Timers β → Timers β × List (TimerEvent β) × Bool
  | 0, _, s => (s, [], false)
  | fuel + 1, k, s =>
    match s.timers.top with
    | none => (s, [], true)
    | some e =>
      if e.deadlineNs ≤ t then
        let c := s.popped.called react k e
        let rest := dispatchLoop t react fuel (k + 1) c.1
        (rest.1, .fired e t :: (c.2 ++ rest.2.1), rest.2.2)
      else (s, [], true)

/-- `iox_timer_dispatch` at time `t`. -/
def dispatch (s : Timers β) (t : Int) (react : Nat → List (TimerCall β)) (fuel : Nat) :
    Timers β × List (TimerEvent β) × Bool :=
  if s.initialized = false then (s, [], true) else dispatchLoop t react fuel 0 s

end Timers

/-! ## The ledger -/

/-- The timers that were armed and neither removed nor fired since. -/
def outstanding (h : List (TimerEvent β)) : Multiset (TimerEntry β) :=
  h.foldl (fun m ev => match ev with
    | .armed e => e ::ₘ m
    | .refused => m
    | .removed id => m.filter fun e => e.id ≠ id
    | .fired e _ => m.filter fun e' => e'.id ≠ e.id) 0

@[simp] theorem outstanding_nil : outstanding ([] : List (TimerEvent β)) = 0 := rfl

@[simp] theorem outstanding_armed (h : List (TimerEvent β)) (e : TimerEntry β) :
    outstanding (h ++ [.armed e]) = e ::ₘ outstanding h := by
  simp [outstanding]

@[simp] theorem outstanding_refused (h : List (TimerEvent β)) :
    outstanding (h ++ [.refused]) = outstanding h := by
  simp [outstanding]

@[simp] theorem outstanding_removed (h : List (TimerEvent β)) (id : Int) :
    outstanding (h ++ [.removed id]) = (outstanding h).filter fun e => e.id ≠ id := by
  simp [outstanding]

@[simp] theorem outstanding_fired (h : List (TimerEvent β)) (e : TimerEntry β) (t : Int) :
    outstanding (h ++ [.fired e t]) = (outstanding h).filter fun e' => e'.id ≠ e.id := by
  simp [outstanding]

/-- After `post`, a timer with this id is still to fire. -/
def Untouched (id : Int) (post : List (TimerEvent β)) : Prop :=
  .removed id ∉ post ∧ ∀ e t, .fired e t ∈ post → e.id ≠ id

theorem untouched_concat {id : Int} {post : List (TimerEvent β)} {ev : TimerEvent β} :
    Untouched id (post ++ [ev]) ↔ Untouched id post ∧ Untouched id [ev] := by
  simp only [Untouched, List.mem_append, not_or]
  constructor
  · intro ⟨⟨h1, h2⟩, h3⟩
    exact ⟨⟨h1, fun e t h => h3 e t (.inl h)⟩, h2, fun e t h => h3 e t (.inr h)⟩
  · intro ⟨⟨h1, h2⟩, h3, h4⟩
    exact ⟨⟨h1, h3⟩, fun e t h => h.elim (h2 e t) (h4 e t)⟩

theorem concat_split {h pre post : List (TimerEvent β)} {ev x : TimerEvent β} :
    h ++ [ev] = pre ++ x :: post ↔
      (post = [] ∧ pre = h ∧ x = ev) ∨ ∃ post', post = post' ++ [ev] ∧ h = pre ++ x :: post' := by
  constructor
  · intro he
    rcases List.eq_nil_or_concat post with hp | ⟨post', y, hp⟩
    · subst hp
      obtain ⟨h1, h2⟩ := List.append_inj' he rfl
      exact .inl ⟨rfl, h1.symm, by simpa using h2.symm⟩
    · rw [List.concat_eq_append] at hp
      subst hp
      rw [← List.cons_append, ← List.append_assoc] at he
      obtain ⟨h1, h2⟩ := List.append_inj' he rfl
      exact .inr ⟨post', by simpa using h2.symm, h1⟩
  · intro h
    rcases h with ⟨rfl, rfl, rfl⟩ | ⟨post', rfl, rfl⟩ <;> simp

theorem mem_outstanding {h : List (TimerEvent β)} {e : TimerEntry β} :
    e ∈ outstanding h ↔ ∃ pre post, h = pre ++ .armed e :: post ∧ Untouched e.id post := by
  induction h using List.reverseRecOn with
  | nil => simp
  | append_singleton h ev ih =>
    simp only [concat_split]
    have hback : (∃ pre post, (∃ post', post = post' ++ [ev] ∧ h = pre ++ .armed e :: post') ∧
        Untouched e.id post) ↔ e ∈ outstanding h ∧ Untouched e.id [ev] := by
      rw [ih]
      constructor
      · intro ⟨pre, post, ⟨post', hp, hh⟩, hu⟩
        subst hp
        exact ⟨⟨pre, post', hh, (untouched_concat.1 hu).1⟩, (untouched_concat.1 hu).2⟩
      · intro ⟨⟨pre, post', hh, hu⟩, hu'⟩
        exact ⟨pre, _, ⟨post', rfl, hh⟩, untouched_concat.2 ⟨hu, hu'⟩⟩
    simp only [or_and_right, exists_or, hback]
    cases ev with
    | armed e' => simp [Untouched, eq_comm]
    | refused => simp [Untouched]
    | removed id => simp [Untouched, eq_comm]
    | fired e' t => simp [Untouched, eq_comm]

/-- The id of a timer that an event arms. -/
def TimerEvent.armedId : TimerEvent β → Option Int
  | .armed e => some e.id
  | _ => none

/-- The event is a call of `iox_timer_add`. -/
def TimerEvent.isAdd : TimerEvent β → Bool
  | .armed _ | .refused => true
  | _ => false

/-- The calls of `iox_timer_add`. -/
def adds (h : List (TimerEvent β)) : Nat := h.countP TimerEvent.isAdd

theorem adds_append (h h' : List (TimerEvent β)) : adds (h ++ h') = adds h + adds h' :=
  List.countP_append ..

/-- Each firing is of an outstanding timer, and not before its deadline. -/
def Lawful (h : List (TimerEvent β)) : Prop :=
  ∀ pre e t post, h = pre ++ .fired e t :: post → e ∈ outstanding pre ∧ e.deadlineNs ≤ t

/-! ## The queue -/

/-- The queue is a heap, of one of the sizes that it grows to. -/
structure Live (s : Timers β) : Prop where
  ok : s.timers.Ok later
  size : s.timers.max = 0 ∨ ∃ k, s.timers.max = 2 ^ k
  init : s.initialized = true

theorem live_init (calloc : Bool) : Live (Timers.init calloc : Timers β) := by
  cases calloc with
  | false =>
    exact ⟨⟨fun i _ hi => absurd hi (Nat.not_lt_zero i), le_rfl, Nat.zero_le pqMost⟩, .inl rfl, rfl⟩
  | true =>
    have hsmall : ioxMaxTimers ≤ pqMost := by decide
    exact ⟨⟨fun i _ hi => absurd hi (Nat.not_lt_zero i), Nat.zero_le _, hsmall⟩, .inr ⟨4, rfl⟩, rfl⟩

/-- `timers.max * 2` does not leave the sizes of a queue; the largest one is doubled to 0. -/
theorem doubled_size {m : Nat} (hm : m ≤ pqMost) (hs : m = 0 ∨ ∃ k, m = 2 ^ k) :
    m * 2 % 2 ^ 32 ≤ pqMost ∧ (m * 2 % 2 ^ 32 = 0 ∨ ∃ k, m * 2 % 2 ^ 32 = 2 ^ k) := by
  unfold pqMost at *
  rcases hs with rfl | ⟨k, rfl⟩
  · exact ⟨by decide, .inl rfl⟩
  · have hk : k ≤ 31 := (Nat.pow_le_pow_iff_right (by decide)).1 hm
    rw [← Nat.pow_succ]
    rcases Nat.lt_or_eq_of_le hk with hk | rfl
    · rw [Nat.mod_eq_of_lt (Nat.pow_lt_pow_right (by decide) (by omega))]
      exact ⟨Nat.pow_le_pow_right (by decide) (by omega), .inr ⟨_, rfl⟩⟩
    · exact ⟨by decide, .inl (by decide)⟩

/-- `iox_timer_add` puts one entry in the queue or leaves it as it is. -/
theorem add_spec {s : Timers β} (h : Live s) (now ms : Int) (cb : Option β) (realloc : Bool) :
    Live (s.add now ms cb realloc).2 ∧
    (s.add now ms cb realloc).2.nextId = (s.nextId + 1).bmod (2 ^ 32) ∧
    (((s.add now ms cb realloc).1 = some s.nextId ∧
      (s.add now ms cb realloc).2.timers.held =
        ⟨now + ms * 1000000, cb, s.nextId⟩ ::ₘ s.timers.held) ∨
    ((s.add now ms cb realloc).1 = none ∧
      (s.add now ms cb realloc).2.timers.held = s.timers.held)) := by
  obtain ⟨hok1, hmax1, -, hheld1⟩ := Pq.enqueue_spec strictWeak_later h.ok
    (⟨now + ms * 1000000, cb, s.nextId⟩ : TimerEntry β)
  unfold Timers.add
  rw [if_neg (by simp [h.init])]
  simp only []
  generalize s.timers.enqueue later ⟨now + ms * 1000000, cb, s.nextId⟩ = r at hok1 hmax1 hheld1 ⊢
  have hsize1 : r.2.max = 0 ∨ ∃ k, r.2.max = 2 ^ k := by rw [hmax1]; exact h.size
  obtain ⟨hnew, hsize2⟩ := doubled_size hok1.small hsize1
  obtain ⟨hok2, hheld2, hgrown, hsame⟩ := Pq.resize_spec hok1 hnew realloc
  generalize r.2.resize (r.2.max * 2 % 2 ^ 32) realloc = g at hok2 hheld2 hgrown hsame ⊢
  obtain ⟨hok3, hmax3, -, hheld3⟩ := Pq.enqueue_spec strictWeak_later hok2
    (⟨now + ms * 1000000, cb, s.nextId⟩ : TimerEntry β)
  by_cases hroom : r.1 = true
  · rw [if_pos hroom] at hheld1 ⊢
    exact ⟨⟨hok1, hsize1, h.init⟩, rfl, .inl ⟨rfl, hheld1⟩⟩
  rw [if_neg hroom] at hheld1 ⊢
  by_cases hgrow : g.1 = false
  · rw [if_pos hgrow]
    exact ⟨⟨hok2, by rw [hsame hgrow]; exact hsize1, h.init⟩, rfl, .inr ⟨rfl, hheld2.trans hheld1⟩⟩
  rw [if_neg hgrow]
  rw [hheld2.trans hheld1] at hheld3
  have hmax : g.2.max = r.2.max * 2 % 2 ^ 32 := (hgrown (by simpa using hgrow)).2
  refine ⟨⟨hok3, by rw [hmax3, hmax]; exact hsize2, h.init⟩, rfl, ?_⟩
  by_cases hroom' : (g.2.enqueue later ⟨now + ms * 1000000, cb, s.nextId⟩).1 = true
  · rw [if_pos hroom'] at hheld3 ⊢
    exact .inl ⟨rfl, hheld3⟩
  · rw [if_neg hroom'] at hheld3 ⊢
    exact .inr ⟨rfl, hheld3⟩

/-- `(int)` keeps a size below 2^31. -/
theorem scanned_eq {nr : Nat} (h : nr < 2 ^ 31) : scanned nr = List.range nr := by
  rw [scanned, Int.bmod_eq_of_le (by omega) (by omega), Int.toNat_natCast]

theorem lt_of_scanned {nr i : Nat} (h : i ∈ scanned nr) : i < nr := by
  have hi := List.mem_range.1 h
  have hle : (nr : Int).bmod (2 ^ 32) ≤ nr := by
    rw [Int.bmod_def]
    split <;> omega
  omega

/-- `iox_timer_remove` takes one entry with the id out of the queue, or leaves it as it is. -/
theorem remove_spec {s : Timers β} (h : Live s) (id : Int) :
    Live (s.remove id) ∧ (s.remove id).nextId = s.nextId ∧
    ((s.remove id = s ∧ (s.timers.nr < 2 ^ 31 → ∀ e ∈ s.timers.held, e.id ≠ id)) ∨
      ∃ e, e.id = id ∧ s.timers.held = e ::ₘ (s.remove id).timers.held) := by
  unfold Timers.remove
  rw [if_neg (by simp [h.init])]
  cases hf : (scanned s.timers.nr).find? fun i => decide ((s.timers.entry i).id = id) with
  | none =>
    refine ⟨h, rfl, .inl ⟨rfl, fun hlt e he => ?_⟩⟩
    rw [scanned_eq hlt] at hf
    obtain ⟨i, hi, hei⟩ := mem_contents.1 he
    have := List.find?_eq_none.1 hf i (List.mem_range.2 hi)
    simpa [hei] using this
  | some i =>
    have hi : i < s.timers.nr := lt_of_scanned (List.mem_of_find?_eq_some hf)
    obtain ⟨-, hok, hmax, hheld⟩ := Pq.remove_spec strictWeak_later h.ok hi
    exact ⟨⟨hok, by rw [hmax]; exact h.size, h.init⟩, rfl,
      .inr ⟨s.timers.entry i, by simpa using List.find?_some hf, hheld⟩⟩

/-- The first entry of the queue is taken out; no deadline is before its own. -/
theorem popped_spec {s : Timers β} (h : Live s) {e : TimerEntry β} (htop : s.timers.top = some e) :
    Live s.popped ∧ s.timers.held = e ::ₘ s.popped.timers.held ∧
      ∀ x ∈ s.timers.held, e.deadlineNs ≤ x.deadlineNs := by
  have hn : 0 < s.timers.nr := by
    by_contra h0
    rw [Pq.top, Pq.peek, if_neg h0] at htop
    simp at htop
  obtain ⟨e', htop', -, hok, hmax, hheld, hfirst⟩ := Pq.dequeue_spec strictWeak_later h.ok hn
  obtain rfl : e' = e := Option.some.inj (htop'.symm.trans htop)
  exact ⟨⟨hok, by rw [Timers.popped, hmax]; exact h.size, h.init⟩, hheld,
    fun x hx => by simpa [later] using hfirst x hx⟩

theorem top_cases {s : Timers β} (h : Live s) :
    (s.timers.held = 0 ∧ s.timers.top = none) ∨ ∃ e, s.timers.top = some e := by
  rcases Nat.eq_zero_or_pos s.timers.nr with h0 | h0
  · exact .inl ⟨Multiset.card_eq_zero.1 ((Pq.card_held _).trans h0),
      by rw [Pq.top, Pq.peek, if_neg (by omega)]⟩
  · obtain ⟨e, htop, -⟩ := Pq.dequeue_spec strictWeak_later h.ok h0
    exact .inr ⟨e, htop⟩

theorem live_exec {s : Timers β} (h : Live s) (c : TimerCall β) : Live (s.exec c).1 := by
  cases c with
  | add now ms cb realloc => exact (add_spec h now ms cb realloc).1
  | remove id => exact (remove_spec h id).1

theorem live_execAll {s : Timers β} (h : Live s) (cs : List (TimerCall β)) :
    Live (s.execAll cs).1 := by
  induction cs generalizing s with
  | nil => exact h
  | cons c cs ih => exact ih (live_exec h c)

theorem live_called {s : Timers β} (h : Live s) (react : Nat → List (TimerCall β)) (k : Nat)
    (e : TimerEntry β) : Live (s.called react k e).1 := by
  unfold Timers.called
  split_ifs
  · exact live_execAll h (react k)
  · exact h

theorem dispatchLoop_fire {t : Int} {s : Timers β} {e : TimerEntry β} (htop : s.timers.top = some e)
    (hd : e.deadlineNs ≤ t) (react : Nat → List (TimerCall β)) (fuel k : Nat) :
    Timers.dispatchLoop t react (fuel + 1) k s =
      let rest := Timers.dispatchLoop t react fuel (k + 1) (s.popped.called react k e).1
      (rest.1, .fired e t :: ((s.popped.called react k e).2 ++ rest.2.1), rest.2.2) := by
  rw [Timers.dispatchLoop, htop]
  exact if_pos hd

theorem dispatchLoop_stop {t : Int} {s : Timers β}
    (h : ∀ e, s.timers.top = some e → t < e.deadlineNs) (react : Nat → List (TimerCall β))
    (fuel k : Nat) : Timers.dispatchLoop t react (fuel + 1) k s = (s, [], true) := by
  rw [Timers.dispatchLoop]
  split
  · rfl
  · next e htop => exact if_neg (by have := h e htop; omega)

/-- If the first entry is not due, none is. -/
theorem none_due {t : Int} {s : Timers β} (h : Live s)
    (hstop : ∀ e, s.timers.top = some e → t < e.deadlineNs) :
    ∀ e ∈ s.timers.held, t < e.deadlineNs := by
  intro e he
  rcases top_cases h with ⟨hempty, -⟩ | ⟨first, htop⟩
  · simp [hempty] at he
  · exact (hstop first htop).trans_le ((popped_spec h htop).2.2 e he)

/-- One iteration of the loop: the first entry is due and its callback runs, or the loop ends. -/
theorem loop_cases (t : Int) (s : Timers β) :
    (∃ e, s.timers.top = some e ∧ e.deadlineNs ≤ t) ∨
      ∀ e, s.timers.top = some e → t < e.deadlineNs := by
  by_cases h : ∃ e, s.timers.top = some e ∧ e.deadlineNs ≤ t
  · exact .inl h
  · exact .inr fun e he => not_le.1 fun hd => h ⟨e, he, hd⟩

theorem live_dispatchLoop (t : Int) (react : Nat → List (TimerCall β)) (fuel : Nat) :
    ∀ {s : Timers β} (k : Nat), Live s → Live (Timers.dispatchLoop t react fuel k s).1 ∧
      ((Timers.dispatchLoop t react fuel k s).2.2 = true →
        ∀ e ∈ (Timers.dispatchLoop t react fuel k s).1.timers.held, t < e.deadlineNs) := by
  induction fuel with
  | zero => exact fun k h => ⟨h, by simp [Timers.dispatchLoop]⟩
  | succ fuel ih =>
    intro s k h
    rcases loop_cases t s with ⟨e, htop, hd⟩ | hstop
    · rw [dispatchLoop_fire htop hd]
      exact ih (k + 1) (live_called (popped_spec h htop).1 react k e)
    · rw [dispatchLoop_stop hstop]
      exact ⟨h, fun _ => none_due h hstop⟩

/-! ## The history -/

/-- The queue holds the outstanding timers of a lawful history of fewer than 2^31 calls of
`iox_timer_add`. -/
structure Ledger (h : List (TimerEvent β)) (s : Timers β) : Prop where
  held : s.timers.held = outstanding h
  ids : (s.timers.held.map TimerEntry.id).Nodup
  armed : (h.filterMap TimerEvent.armedId).Nodup
  counted : s.nextId = adds h
  fresh : ∀ id ∈ h.filterMap TimerEvent.armedId, id < adds h
  few : s.timers.nr ≤ adds h
  lawful : Lawful h

theorem lawful_concat {h : List (TimerEvent β)} {ev : TimerEvent β} (hl : Lawful h)
    (hev : ∀ e t, ev = .fired e t → e ∈ outstanding h ∧ e.deadlineNs ≤ t) : Lawful (h ++ [ev]) := by
  intro pre e t post he
  rcases concat_split.1 he with ⟨-, hp, hx⟩ | ⟨post', -, hh⟩
  · subst hp; exact hev e t hx.symm
  · exact hl pre e t post' hh

theorem ledger_init (calloc : Bool) : Ledger ([] : List (TimerEvent β)) (Timers.init calloc) := by
  have hnr : (Timers.init calloc : Timers β).timers.nr = 0 := by cases calloc <;> rfl
  have hheld : (Timers.init calloc : Timers β).timers.held = 0 :=
    Multiset.card_eq_zero.1 ((Pq.card_held _).trans hnr)
  refine ⟨hheld, by rw [hheld]; exact Multiset.nodup_zero, List.nodup_nil, rfl, by simp, hnr.le, ?_⟩
  intro pre e t post he
  simp at he

theorem Ledger.held_fresh {h : List (TimerEvent β)} {s : Timers β} (l : Ledger h s)
    {e : TimerEntry β} (he : e ∈ s.timers.held) : e.id < s.nextId := by
  rw [l.held, mem_outstanding] at he
  obtain ⟨pre, post, hh, -⟩ := he
  rw [l.counted]
  refine l.fresh e.id ?_
  rw [hh, List.filterMap_append]
  exact List.mem_append_right _ (by simp [TimerEvent.armedId])

theorem Ledger.shrink {h : List (TimerEvent β)} {s s' : Timers β} {ev : TimerEvent β} (l : Ledger h s)
    (hnext : s'.nextId = s.nextId) (hadd : ev.isAdd = false)
    (hheld : s'.timers.held = outstanding (h ++ [ev])) (hle : s'.timers.held ≤ s.timers.held)
    (hev : ∀ e t, ev = .fired e t → e ∈ outstanding h ∧ e.deadlineNs ≤ t) :
    Ledger (h ++ [ev]) s' := by
  have hnone : ev.armedId = none := by
    cases ev with
    | armed e => cases hadd
    | _ => rfl
  have hadds : adds (h ++ [ev]) = adds h := by simp [adds, hadd]
  have harmed : (h ++ [ev]).filterMap TimerEvent.armedId = h.filterMap TimerEvent.armedId := by
    simp [hnone]
  have hnr := Multiset.card_le_card hle
  rw [Pq.card_held, Pq.card_held] at hnr
  exact
    { held := hheld
      ids := Multiset.nodup_of_le (Multiset.map_le_map hle) l.ids
      armed := harmed ▸ l.armed
      counted := by rw [hnext, l.counted, hadds]
      fresh := by rw [harmed, hadds]; exact l.fresh
      few := by rw [hadds]; exact hnr.trans l.few
      lawful := lawful_concat l.lawful hev }

/-- The entries with another id, when one entry with the id is taken out. -/
theorem filter_other {m rest : Multiset (TimerEntry β)} {e : TimerEntry β} (h : m = e ::ₘ rest)
    (hn : (m.map TimerEntry.id).Nodup) : m.filter (fun x => x.id ≠ e.id) = rest := by
  subst h
  rw [Multiset.map_cons, Multiset.nodup_cons] at hn
  rw [Multiset.filter_cons_of_neg _ (by simp), Multiset.filter_eq_self]
  intro x hx he
  exact hn.1 (Multiset.mem_map.2 ⟨x, hx, he⟩)

theorem ledger_remove {h : List (TimerEvent β)} {s : Timers β} (l : Ledger h s) (hl : Live s)
    (hfew : adds h < 2 ^ 31) (id : Int) : Ledger (h ++ [.removed id]) (s.remove id) := by
  obtain ⟨-, hnext, ⟨hsame, hnone⟩ | ⟨e, rfl, hheld⟩⟩ := remove_spec hl id
  · refine l.shrink hnext rfl ?_ (by rw [hsame]) (by simp)
    rw [hsame, outstanding_removed, ← l.held, eq_comm, Multiset.filter_eq_self]
    exact hnone (l.few.trans_lt hfew)
  · refine l.shrink hnext rfl ?_ (by rw [hheld]; exact Multiset.le_cons_self _ _) (by simp)
    rw [outstanding_removed, ← l.held]
    exact (filter_other hheld l.ids).symm

theorem ledger_fire {h : List (TimerEvent β)} {s : Timers β} (l : Ledger h s) (hl : Live s)
    {e : TimerEntry β} {t : Int} (htop : s.timers.top = some e) (hd : e.deadlineNs ≤ t) :
    Ledger (h ++ [.fired e t]) s.popped := by
  obtain ⟨-, hheld, -⟩ := popped_spec hl htop
  have hmem : e ∈ outstanding h := by
    rw [← l.held, hheld]; exact Multiset.mem_cons_self e _
  refine l.shrink rfl rfl ?_ (by rw [hheld]; exact Multiset.le_cons_self _ _) ?_
  · rw [outstanding_fired, ← l.held]
    exact (filter_other hheld l.ids).symm
  · intro x u hx
    cases hx
    exact ⟨hmem, hd⟩

theorem ledger_add {h : List (TimerEvent β)} {s : Timers β} (l : Ledger h s) (hl : Live s)
    (now ms : Int) (cb : Option β) (realloc : Bool)
    (hfew : adds (h ++ (s.exec (.add now ms cb realloc)).2) < 2 ^ 31) :
    Ledger (h ++ (s.exec (.add now ms cb realloc)).2) (s.exec (.add now ms cb realloc)).1 := by
  obtain ⟨-, hnext, hcase⟩ := add_spec hl now ms cb realloc
  simp only [Timers.exec] at hfew ⊢
  generalize hev : (if (s.add now ms cb realloc).1.isSome = true then
    TimerEvent.armed ⟨now + ms * 1000000, cb, s.nextId⟩ else TimerEvent.refused) = ev at hfew ⊢
  have hadds : adds (h ++ [ev]) = adds h + 1 := by
    rw [← hev]
    split <;> simp [adds, TimerEvent.isAdd]
  rw [hadds] at hfew
  have hcounted : (s.add now ms cb realloc).2.nextId = adds (h ++ [ev]) := by
    rw [hnext, l.counted, hadds, Int.bmod_eq_of_le (by omega) (by omega)]
    rfl
  rcases hcase with ⟨hans, hheld⟩ | ⟨hans, hheld⟩
  · rw [hans, Option.isSome_some, if_pos rfl] at hev
    subst hev
    refine ⟨by rw [outstanding_armed, ← l.held, hheld], ?_, ?_, hcounted, ?_, ?_,
      lawful_concat l.lawful (by simp)⟩
    · rw [hheld, Multiset.map_cons, Multiset.nodup_cons]
      refine ⟨fun hm => ?_, l.ids⟩
      obtain ⟨e, he, hid⟩ := Multiset.mem_map.1 hm
      exact (l.held_fresh he).ne hid
    · rw [List.filterMap_append, List.nodup_append]
      refine ⟨l.armed, by simp [TimerEvent.armedId], fun id hid id' hid' heq => ?_⟩
      obtain rfl : id' = s.nextId := by simpa [TimerEvent.armedId] using hid'
      exact (l.fresh id hid).ne (heq.trans l.counted)
    · intro id hid
      rw [List.filterMap_append, List.mem_append] at hid
      rw [hadds]
      rcases hid with hid | hid
      · have := l.fresh id hid
        omega
      · obtain rfl : id = s.nextId := by simpa [TimerEvent.armedId] using hid
        rw [l.counted]
        omega
    · rw [hadds, ← Pq.card_held, hheld, Multiset.card_cons, Pq.card_held]
      exact Nat.succ_le_succ l.few
  · rw [hans, Option.isSome_none, if_neg (by simp)] at hev
    subst hev
    have harmed : (h ++ [TimerEvent.refused]).filterMap TimerEvent.armedId =
        h.filterMap TimerEvent.armedId := by
      simp [TimerEvent.armedId]
    refine ⟨by rw [outstanding_refused, hheld, l.held], by rw [hheld]; exact l.ids,
      harmed ▸ l.armed, hcounted, fun id hid => ?_, ?_, lawful_concat l.lawful (by simp)⟩
    · rw [harmed] at hid
      rw [hadds]
      have := l.fresh id hid
      omega
    · rw [hadds, ← Pq.card_held, hheld, Pq.card_held]
      exact l.few.trans (Nat.le_succ _)

theorem ledger_exec {h : List (TimerEvent β)} {s : Timers β} (l : Ledger h s) (hl : Live s)
    (c : TimerCall β) (hfew : adds (h ++ (s.exec c).2) < 2 ^ 31) :
    Ledger (h ++ (s.exec c).2) (s.exec c).1 := by
  cases c with
  | add now ms cb realloc => exact ledger_add l hl now ms cb realloc hfew
  | remove id =>
    rw [Timers.exec, adds_append] at hfew
    exact ledger_remove l hl (by omega) id

theorem ledger_execAll {h : List (TimerEvent β)} {s : Timers β} (l : Ledger h s) (hl : Live s)
    (cs : List (TimerCall β)) (hfew : adds (h ++ (s.execAll cs).2) < 2 ^ 31) :
    Ledger (h ++ (s.execAll cs).2) (s.execAll cs).1 := by
  induction cs generalizing h s with
  | nil => rw [Timers.execAll, List.append_nil]; exact l
  | cons c cs ih =>
    rw [Timers.execAll, ← List.append_assoc] at hfew ⊢
    refine ih (ledger_exec l hl c ?_) (live_exec hl c) hfew
    rw [adds_append] at hfew
    omega

theorem ledger_called {h : List (TimerEvent β)} {s : Timers β} (l : Ledger h s) (hl : Live s)
    (react : Nat → List (TimerCall β)) (k : Nat) (e : TimerEntry β)
    (hfew : adds (h ++ (s.called react k e).2) < 2 ^ 31) :
    Ledger (h ++ (s.called react k e).2) (s.called react k e).1 := by
  unfold Timers.called at *
  split_ifs at *
  · exact ledger_execAll l hl (react k) hfew
  · rw [List.append_nil]; exact l

theorem ledger_dispatchLoop (t : Int) (react : Nat → List (TimerCall β)) (fuel : Nat) :
    ∀ {h : List (TimerEvent β)} {s : Timers β} (k : Nat), Ledger h s → Live s →
      adds (h ++ (Timers.dispatchLoop t react fuel k s).2.1) < 2 ^ 31 →
      Ledger (h ++ (Timers.dispatchLoop t react fuel k s).2.1)
        (Timers.dispatchLoop t react fuel k s).1 := by
  induction fuel with
  | zero =>
    intro h s k l _ _
    rw [Timers.dispatchLoop, List.append_nil]
    exact l
  | succ fuel ih =>
    intro h s k l hl hfew
    rcases loop_cases t s with ⟨e, htop, hd⟩ | hstop
    · have hl1 := (popped_spec hl htop).1
      rw [dispatchLoop_fire htop hd] at hfew ⊢
      have hsplit : h ++ .fired e t :: ((s.popped.called react k e).2 ++
          (Timers.dispatchLoop t react fuel (k + 1) (s.popped.called react k e).1).2.1) =
          (h ++ [.fired e t]) ++ (s.popped.called react k e).2 ++
            (Timers.dispatchLoop t react fuel (k + 1) (s.popped.called react k e).1).2.1 := by
        simp
      simp only [hsplit] at hfew ⊢
      refine ih (k + 1) (ledger_called (ledger_fire l hl htop hd) hl1 react k e ?_)
        (live_called hl1 react k e) hfew
      rw [adds_append] at hfew
      omega
    · rw [dispatchLoop_stop hstop, List.append_nil]
      exact l

/-! ## Runs -/

inductive TimerOp (β : Type)
  | call (c : TimerCall β)
  | dispatch (t : Int) (react : Nat → List (TimerCall β)) (fuel : Nat)

/-- The timers after an operation, and the history with what it did. -/
def timersStep (s : Timers β × List (TimerEvent β)) : TimerOp β → Timers β × List (TimerEvent β)
  | .call c => ((s.1.exec c).1, s.2 ++ (s.1.exec c).2)
  | .dispatch t react fuel => ((s.1.dispatch t react fuel).1, s.2 ++ (s.1.dispatch t react fuel).2.1)

def timersRun (calloc : Bool) (ops : List (TimerOp β)) : Timers β × List (TimerEvent β) :=
  run timersStep (Timers.init calloc, []) ops

theorem live_run (calloc : Bool) (ops : List (TimerOp β)) : Live (timersRun calloc ops).1 := by
  refine run_invariant (I := fun s : Timers β × List (TimerEvent β) => Live s.1) ?_
    (live_init calloc) (along_true ops)
  intro s op h _
  cases op with
  | call c => exact live_exec h c
  | dispatch t react fuel =>
    simp only [timersStep, Timers.dispatch]
    rw [if_neg (by simp [h.init])]
    exact (live_dispatchLoop t react fuel 0 h).1

theorem ledger_run (calloc : Bool) (ops : List (TimerOp β))
    (hfew : adds (timersRun calloc ops).2 < 2 ^ 31) :
    Ledger (timersRun calloc ops).2 (timersRun calloc ops).1 := by
  suffices hrun : Live (timersRun calloc ops).1 ∧ (adds (timersRun calloc ops).2 < 2 ^ 31 →
      Ledger (timersRun calloc ops).2 (timersRun calloc ops).1) from hrun.2 hfew
  refine run_invariant (I := fun s : Timers β × List (TimerEvent β) =>
    Live s.1 ∧ (adds s.2 < 2 ^ 31 → Ledger s.2 s.1)) ?_
    ⟨live_init calloc, fun _ => ledger_init calloc⟩ (along_true ops)
  intro s op ⟨hl, l⟩ _
  cases op with
  | call c =>
    refine ⟨live_exec hl c, fun hfew => ledger_exec (l ?_) hl c hfew⟩
    simp only [timersStep, adds_append] at hfew
    omega
  | dispatch t react fuel =>
    simp only [timersStep, Timers.dispatch]
    rw [if_neg (by simp [hl.init])]
    refine ⟨(live_dispatchLoop t react fuel 0 hl).1, fun hfew =>
      ledger_dispatchLoop t react fuel 0 (l ?_) hl hfew⟩
    rw [adds_append] at hfew
    omega

def TimerEvent.firedId : TimerEvent β → Option Int
  | .fired e _ => some e.id
  | _ => none

theorem Lawful.fired_nodup {h : List (TimerEvent β)} (hl : Lawful h)
    (harmed : (h.filterMap TimerEvent.armedId).Nodup) :
    (h.filterMap TimerEvent.firedId).Nodup := by
  induction h using List.reverseRecOn with
  | nil => exact List.nodup_nil
  | append_singleton h ev ih =>
    rw [List.filterMap_append] at harmed ⊢
    have hl' : Lawful h := fun pre e t post he =>
      hl pre e t (post ++ [ev]) (by rw [he]; simp)
    have hih := ih hl' (List.nodup_append.1 harmed).1
    cases ev with
    | armed e => simpa [TimerEvent.firedId, List.filterMap_cons] using hih
    | refused => simpa [TimerEvent.firedId, List.filterMap_cons] using hih
    | removed id => simpa [TimerEvent.firedId, List.filterMap_cons] using hih
    | fired e t =>
      refine List.nodup_append.2 ⟨hih, by simp [TimerEvent.firedId], fun id hid id' hid' heq => ?_⟩
      obtain rfl : id' = e.id := by simpa [TimerEvent.firedId] using hid'
      obtain ⟨ev, hev, hevid⟩ := List.mem_filterMap.1 hid
      cases ev with
      | armed e' => simp [TimerEvent.firedId] at hevid
      | refused => simp [TimerEvent.firedId] at hevid
      | removed id => simp [TimerEvent.firedId] at hevid
      | fired e' t' =>
        have he' : e'.id = e.id := by
          rw [← heq]; simpa [TimerEvent.firedId] using hevid
        obtain ⟨hmem, -⟩ := hl h e t [] rfl
        obtain ⟨pre, post, hh, hpost⟩ := mem_outstanding.1 hmem
        -- the earlier firing is before `e` was armed, and so is the arming of what fired
        have hpre : .fired e' t' ∈ pre := by
          rw [hh, List.mem_append, List.mem_cons] at hev
          rcases hev with hev | hev | hev
          · exact hev
          · cases hev
          · exact absurd he' (hpost.2 e' t' hev)
        obtain ⟨pre1, pre2, hpre12⟩ := List.append_of_mem hpre
        obtain ⟨hmem', -⟩ := hl' pre1 e' t' (pre2 ++ .armed e :: post) (by rw [hh, hpre12]; simp)
        obtain ⟨p, q, hpq, -⟩ := mem_outstanding.1 hmem'
        have hnd := (List.nodup_append.1 harmed).1
        rw [hh, List.filterMap_append, List.nodup_append] at hnd
        refine hnd.2.2 e'.id ?_ e.id (by simp [TimerEvent.armedId]) he'
        rw [hpre12, hpq]
        simp [TimerEvent.armedId]

/-- **Timers fire exactly as armed.** In every run with fewer than 2^31 calls of `iox_timer_add`,
and with callbacks that arm and remove timers while a dispatch is under way: an id is armed once and
fires at most once; what fires was armed, was not removed since, and its deadline has come; and the
queue holds the timers that were armed and neither removed nor fired since. -/
theorem timers_exact (calloc : Bool) (ops : List (TimerOp β))
    (hfew : adds (timersRun calloc ops).2 < 2 ^ 31) :
    ((timersRun calloc ops).2.filterMap TimerEvent.armedId).Nodup ∧
    ((timersRun calloc ops).2.filterMap TimerEvent.firedId).Nodup ∧
    (∀ pre e t post, (timersRun calloc ops).2 = pre ++ .fired e t :: post →
      e.deadlineNs ≤ t ∧ ∃ pre1 pre2, pre = pre1 ++ .armed e :: pre2 ∧ Untouched e.id pre2) ∧
    (∀ e, e ∈ (timersRun calloc ops).1.timers.held ↔
      ∃ pre post, (timersRun calloc ops).2 = pre ++ .armed e :: post ∧ Untouched e.id post) := by
  have l := ledger_run calloc ops hfew
  refine ⟨l.armed, l.lawful.fired_nodup l.armed, fun pre e t post he => ?_, fun e => ?_⟩
  · obtain ⟨hmem, hd⟩ := l.lawful pre e t post he
    exact ⟨hd, mem_outstanding.1 hmem⟩
  · rw [l.held, mem_outstanding]

/-- A timer is armed and fires, its callback arms another one. -/
theorem timers_exact_again :
    let ops : List (TimerOp Unit) := [.call (.add 0 5 (some ()) true),
      .dispatch 5000000 (fun _ => [.add 5000000 5 (some ()) true]) 2]
    ((timersRun true ops).2.filterMap TimerEvent.armedId).Nodup :=
  (timers_exact true [.call (.add 0 5 (some ()) true),
    .dispatch 5000000 (fun _ => [.add 5000000 5 (some ()) true]) 2] (by decide +kernel)).1

/-! ## One dispatch -/

/-- The timers whose deadline is not after `t`. -/
def due (t : Int) (s : Timers β) : Multiset (TimerEntry β) :=
  s.timers.held.filter fun e => e.deadlineNs ≤ t

/-- The callbacks of the dispatch at `t` arm no timer that is due by then. -/
def ArmsLater (t : Int) (react : Nat → List (TimerCall β)) : Prop :=
  ∀ k now ms cb realloc, .add now ms cb realloc ∈ react k → t < now + ms * 1000000

/-- The entry that an event fires. -/
def TimerEvent.entry : TimerEvent β → Option (TimerEntry β)
  | .fired e _ => some e
  | _ => none

/-- The timers that fired, in order. -/
def firedOf (evs : List (TimerEvent β)) : List (TimerEntry β) := evs.filterMap TimerEvent.entry

/-- From `s` to `s'` with the events `evs`, no timer fired, none became due, and what left the queue
was removed. -/
structure Quiet (t : Int) (s s' : Timers β) (evs : List (TimerEvent β)) : Prop where
  fired : firedOf evs = []
  due : due t s' ≤ due t s
  kept : ∀ e ∈ s.timers.held, e ∈ s'.timers.held ∨ .removed e.id ∈ evs

theorem Quiet.refl (t : Int) (s : Timers β) : Quiet t s s [] :=
  ⟨rfl, le_rfl, fun _ he => .inl he⟩

theorem Quiet.trans {t : Int} {s s' s'' : Timers β} {evs evs' : List (TimerEvent β)}
    (h : Quiet t s s' evs) (h' : Quiet t s' s'' evs') : Quiet t s s'' (evs ++ evs') where
  fired := by
    have h1 := h.fired
    have h2 := h'.fired
    unfold firedOf at h1 h2 ⊢
    rw [List.filterMap_append, h1, h2]
    rfl
  due := h'.due.trans h.due
  kept := by
    intro e he
    rcases h.kept e he with hk | hk
    · exact (h'.kept e hk).imp_right (List.mem_append_right _)
    · exact .inr (List.mem_append_left _ hk)

theorem quiet_exec {s : Timers β} (h : Live s) {t : Int} {c : TimerCall β}
    (hc : ∀ now ms cb realloc, c = .add now ms cb realloc → t < now + ms * 1000000) :
    Quiet t s (s.exec c).1 (s.exec c).2 := by
  cases c with
  | add now ms cb realloc =>
    obtain ⟨-, -, hcase⟩ := add_spec h now ms cb realloc
    have hlater := hc now ms cb realloc rfl
    simp only [Timers.exec]
    rcases hcase with ⟨hans, hheld⟩ | ⟨hans, hheld⟩
    · simp only [hans, Option.isSome_some, if_true]
      refine ⟨rfl, ?_, fun e he => .inl (by rw [hheld]; exact Multiset.mem_cons_of_mem he)⟩
      rw [due, hheld, Multiset.filter_cons_of_neg _ (by simpa using hlater)]
      exact le_rfl
    · simp only [hans, Option.isSome_none, Bool.false_eq_true, if_false]
      exact ⟨rfl, by rw [due, hheld]; exact le_rfl, fun e he => .inl (by rw [hheld]; exact he)⟩
  | remove id =>
    simp only [Timers.exec]
    obtain ⟨-, -, ⟨hsame, -⟩ | ⟨x, rfl, hheld⟩⟩ := remove_spec h id
    · rw [hsame]
      exact ⟨rfl, le_rfl, fun e he => .inl he⟩
    · refine ⟨rfl, ?_, fun e he => ?_⟩
      · rw [due, due, hheld]
        exact Multiset.filter_le_filter _ (Multiset.le_cons_self _ _)
      · rw [hheld, Multiset.mem_cons] at he
        rcases he with rfl | he
        · exact .inr (List.mem_singleton_self _)
        · exact .inl he

theorem quiet_execAll {s : Timers β} (h : Live s) {t : Int} {cs : List (TimerCall β)}
    (hc : ∀ now ms cb realloc, .add now ms cb realloc ∈ cs → t < now + ms * 1000000) :
    Quiet t s (s.execAll cs).1 (s.execAll cs).2 := by
  induction cs generalizing s with
  | nil => exact .refl t s
  | cons c cs ih =>
    have hhead := quiet_exec h (t := t) (c := c)
      fun now ms cb realloc he => hc now ms cb realloc (he ▸ List.mem_cons_self)
    exact hhead.trans (ih (live_exec h c) fun now ms cb realloc he => hc now ms cb realloc (.tail _ he))

theorem dispatchLoop_due {t : Int} {react : Nat → List (TimerCall β)} (hlater : ArmsLater t react)
    (fuel : Nat) : ∀ {s : Timers β} (k : Nat), Live s → (due t s).card < fuel →
      (Timers.dispatchLoop t react fuel k s).2.2 = true ∧
      (firedOf (Timers.dispatchLoop t react fuel k s).2.1).Pairwise
        (fun e e' => e.deadlineNs ≤ e'.deadlineNs) ∧
      (∀ e ∈ firedOf (Timers.dispatchLoop t react fuel k s).2.1, e ∈ due t s) ∧
      (∀ e ∈ due t s, e ∈ firedOf (Timers.dispatchLoop t react fuel k s).2.1 ∨
        .removed e.id ∈ (Timers.dispatchLoop t react fuel k s).2.1) := by
  induction fuel with
  | zero => intro s k _ hf; omega
  | succ fuel ih =>
    intro s k h hf
    rcases loop_cases t s with ⟨e, htop, hd⟩ | hstop
    · obtain ⟨hl1, hheld, hfirst⟩ := popped_spec h htop
      have hpop : due t s = e ::ₘ due t s.popped := by
        rw [due, hheld]
        exact Multiset.filter_cons_of_pos _ hd
      have hq : Quiet t s.popped (s.popped.called react k e).1 (s.popped.called react k e).2 := by
        unfold Timers.called
        split_ifs
        · exact quiet_execAll hl1 (hlater k)
        · exact .refl t _
      have hcard : (due t (s.popped.called react k e).1).card < fuel := by
        have := Multiset.card_le_card hq.due
        rw [hpop, Multiset.card_cons] at hf
        omega
      obtain ⟨hdone, hsorted, hsub, hall⟩ := ih (k + 1) (live_called hl1 react k e) hcard
      rw [dispatchLoop_fire htop hd]
      have hfired : ∀ evs, firedOf (.fired e t :: ((s.popped.called react k e).2 ++ evs)) =
          e :: firedOf evs := by
        intro evs
        have := hq.fired
        unfold firedOf at this ⊢
        simp [TimerEvent.entry, this]
      simp only [hfired]
      refine ⟨hdone, List.pairwise_cons.2 ⟨fun x hx => ?_, hsorted⟩, fun x hx => ?_, fun x hx => ?_⟩
      · have := Multiset.mem_of_le hq.due (hsub x hx)
        exact hfirst x (Multiset.mem_of_mem_filter (hpop ▸ Multiset.mem_cons_of_mem this))
      · rw [hpop, Multiset.mem_cons]
        rcases List.mem_cons.1 hx with hx | hx
        · exact .inl hx
        · exact .inr (Multiset.mem_of_le hq.due (hsub x hx))
      · rw [hpop, Multiset.mem_cons] at hx
        rcases hx with hx | hx
        · exact .inl (hx ▸ List.mem_cons_self)
        · rcases hq.kept x (Multiset.mem_of_mem_filter hx) with hk | hk
          · have hxd : x ∈ due t (s.popped.called react k e).1 :=
              Multiset.mem_filter.2 ⟨hk, (Multiset.mem_filter.1 hx).2⟩
            rcases hall x hxd with hy | hy
            · exact .inl (.tail _ hy)
            · exact .inr (.tail _ (List.mem_append_right _ hy))
          · exact .inr (.tail _ (List.mem_append_left _ hk))
    · rw [dispatchLoop_stop hstop]
      refine ⟨rfl, List.Pairwise.nil, by simp [firedOf], fun e he => ?_⟩
      obtain ⟨hmem, hd⟩ := Multiset.mem_filter.1 he
      have := none_due h hstop e hmem
      omega

/-- **A dispatch fires what is due, earliest first.** In every run, if the callbacks of a dispatch
arm no timer that is due at once, the loop ends within as many callbacks as timers are due; it fires
only timers that were due, in the order of their deadlines; each one that was due fires or is
removed by a callback before its turn; and what stays in the queue is not due. -/
theorem dispatch_in_order (calloc : Bool) (ops : List (TimerOp β)) {t : Int}
    {react : Nat → List (TimerCall β)} (hlater : ArmsLater t react) {fuel : Nat}
    (hfuel : (due t (timersRun calloc ops).1).card < fuel) :
    ((timersRun calloc ops).1.dispatch t react fuel).2.2 = true ∧
    (firedOf ((timersRun calloc ops).1.dispatch t react fuel).2.1).Pairwise
      (fun e e' => e.deadlineNs ≤ e'.deadlineNs) ∧
    (∀ e ∈ firedOf ((timersRun calloc ops).1.dispatch t react fuel).2.1,
      e ∈ due t (timersRun calloc ops).1) ∧
    (∀ e ∈ due t (timersRun calloc ops).1,
      e ∈ firedOf ((timersRun calloc ops).1.dispatch t react fuel).2.1 ∨
      .removed e.id ∈ ((timersRun calloc ops).1.dispatch t react fuel).2.1) ∧
    (∀ e ∈ ((timersRun calloc ops).1.dispatch t react fuel).1.timers.held, t < e.deadlineNs) := by
  have h := live_run calloc ops
  rw [Timers.dispatch, if_neg (by simp [h.init])]
  obtain ⟨hdone, hsorted, hsub, hall⟩ := dispatchLoop_due hlater fuel 0 h hfuel
  exact ⟨hdone, hsorted, hsub, hall, (live_dispatchLoop t react fuel 0 h).2 hdone⟩

/-- The whole milliseconds that `iox_timer_next_ms` answers with before it clamps them. -/
theorem ceil_ms (d : Int) :
    (0 ≤ d → d ≤ (d + 999999).tdiv 1000000 * 1000000 ∧
      ((d + 999999).tdiv 1000000 - 1) * 1000000 < d) ∧
    (d ≤ 0 → (d + 999999).tdiv 1000000 ≤ 0) := by
  refine ⟨fun h => ?_, fun h => ?_⟩
  · rw [Int.tdiv_eq_ediv_of_nonneg (by omega)]
    omega
  · rcases le_or_gt 0 (d + 999999) with h0 | h0
    · rw [Int.tdiv_eq_ediv_of_nonneg h0]
      omega
    · have hneg := Int.tdiv_nonneg (show 0 ≤ -(d + 999999) by omega)
        (show (0 : Int) ≤ 1000000 by decide)
      rw [Int.neg_tdiv] at hneg
      omega

/-- **The loop sleeps as long as it may.** In every run `iox_timer_next_ms` answers -1 exactly when no
timer is pending. Otherwise it answers 0 exactly when a deadline has passed; the wait it answers ends
less than a millisecond after the first deadline if none has; and a dispatch after the wait fires a
timer, unless the wait was capped at `INT_MAX`. -/
theorem wait_reaches_deadline (calloc : Bool) (ops : List (TimerOp β)) (now : Int) :
    let s := (timersRun calloc ops).1
    (s.nextMs now = -1 ↔ s.timers.held = 0) ∧
    (s.timers.held ≠ 0 → (0 ≤ s.nextMs now ∧ s.nextMs now ≤ 0x7FFFFFFF) ∧
      (s.nextMs now = 0 ↔ ∃ e ∈ s.timers.held, e.deadlineNs ≤ now) ∧
      (∀ e ∈ s.timers.held, now < e.deadlineNs →
        now + (s.nextMs now - 1) * 1000000 < e.deadlineNs) ∧
      (s.nextMs now < 0x7FFFFFFF → ∀ t react fuel, now + s.nextMs now * 1000000 ≤ t →
        firedOf (s.dispatch t react (fuel + 1)).2.1 ≠ [])) := by
  intro s
  have h : Live s := live_run calloc ops
  rcases top_cases h with ⟨hempty, htop⟩ | ⟨e, htop⟩
  · have hnext : s.nextMs now = -1 := by rw [Timers.nextMs, if_neg (by simp [h.init]), htop]
    exact ⟨by simp [hnext, hempty], fun hne => absurd hempty hne⟩
  · obtain ⟨-, hheld, hfirst⟩ := popped_spec h htop
    have hmem : e ∈ s.timers.held := by rw [hheld]; exact Multiset.mem_cons_self e _
    obtain ⟨hpos, hneg⟩ := ceil_ms (e.deadlineNs - now)
    have hnext : s.nextMs now =
        if 0x7FFFFFFF < max 0 ((e.deadlineNs - now + 999999).tdiv 1000000) then 0x7FFFFFFF
        else max 0 ((e.deadlineNs - now + 999999).tdiv 1000000) := by
      rw [Timers.nextMs, if_neg (by simp [h.init]), htop]
      simp only [max_def, ← not_lt, ite_not]
    generalize (e.deadlineNs - now + 999999).tdiv 1000000 = q at hpos hneg hnext
    have hrange : 0 ≤ s.nextMs now ∧ s.nextMs now ≤ 0x7FFFFFFF := by
      rw [hnext]
      split_ifs <;> omega
    refine ⟨⟨fun hm => by omega, fun h0 => by simp [h0] at hmem⟩, fun _ =>
      ⟨hrange, ⟨fun h0 => ⟨e, hmem, ?_⟩, fun ⟨x, hx, hp⟩ => ?_⟩, fun x hx hlt => ?_,
        fun hcap t react fuel ht => ?_⟩⟩
    · rw [hnext] at h0
      split_ifs at h0 <;> omega
    · have hle := hfirst x hx
      rw [hnext]
      split_ifs <;> omega
    · have hle := hfirst x hx
      rw [hnext]
      split_ifs <;> omega
    · have hd : e.deadlineNs ≤ t := by
        rw [hnext] at hcap ht
        split_ifs at hcap ht <;> omega
      rw [Timers.dispatch, if_neg (by simp [h.init]), dispatchLoop_fire htop hd]
      simp [firedOf, TimerEvent.entry]

end

/-- Two timers that are due, the first of which removes the second and arms a third. -/
theorem dispatch_in_order_pair :
    let ops : List (TimerOp Unit) :=
      [.call (.add 0 5 (some ()) true), .call (.add 0 7 (some ()) true)]
    let react : Nat → List (TimerCall Unit) := fun _ => [.remove 1, .add 9000000 1 none true]
    (firedOf ((timersRun true ops).1.dispatch 9000000 react 3).2.1).Pairwise
      fun e e' => e.deadlineNs ≤ e'.deadlineNs :=
  (@dispatch_in_order Unit true _ 9000000 (fun _ => [.remove 1, .add 9000000 1 none true])
    (by intro k now ms cb realloc h; simp at h; omega) 3
    (by
      have h : (due 9000000 (timersRun true [.call (.add 0 5 (some ()) true),
          .call (.add 0 7 (some ()) true)]).1).card ≤ 2 :=
        (Multiset.card_le_card (Multiset.filter_le _ _)).trans
          (by rw [Pq.card_held]; simp [timersRun, run, timersStep, Timers.exec, Timers.add,
            Timers.init, Pq.init, Pq.enqueue, ioxMaxTimers])
      omega)).2.1

end Netchan.Iox
