import Netchan.Lib.Heap
import Mathlib.Algebra.Group.Nat.Defs

/-!
# The priority queue

`examples/iox/pq.h`: a binary heap in an array of `max` entries, of which `nr` are in use. `deeper`
is `PQ_COMPARE`. An array is a function of its index; what lies at `nr` and beyond is not read.
Indices are `unsigned`: the child of an entry in the upper half of them is at an index that wrapped,
so the queue is a heap only as long as its array has at most 2^31 entries (`pqMost`).

`Bag` is what the queue is for: a bounded bag from which an entry comes out that no other entry
belongs above. `queue_refines_bag` says that every run of the queue is a run of the bag.
-/

namespace Netchan.Iox

open Lib Lib.Heap

/-- `struct PQ_NAME`. -/
structure Pq (α : Type) where
  nr : Nat
  max : Nat
  entry : Nat → α

section
variable {α : Type} (deeper : α → α → Bool)

/-! ## The two sifts -/

/-- `siftup_`: where the hole ends, and the entries. -/
def siftup (entry : Nat → α) (i : Nat) (elm : α) : Nat × (Nat → α) :=
  if _h : 0 < i ∧ deeper (entry (parent i)) elm = true then
    siftup (Function.update entry i (entry (parent i))) (parent i) elm
  else (i, entry)
termination_by i
decreasing_by exact parent_lt _h.1

/-- `PQ__LEFT`. -/
def left (i : Nat) : Nat := (2 * i + 1) % 2 ^ 32

/-- `child + 1`. -/
def next (i : Nat) : Nat := (i + 1) % 2 ^ 32

/-- The child that should be higher in the heap. -/
def higherChild (nr : Nat) (entry : Nat → α) (i : Nat) : Nat :=
  if next (left i) < nr ∧ deeper (entry (left i)) (entry (next (left i))) = true then next (left i)
  else left i

/-- `siftdown_`. The hole moves down, so `nr` steps are enough, unless the index of a child wraps;
where the loop goes then is not followed. -/
def siftdown (nr : Nat) : Nat → (Nat → α) → Nat → α → Nat × (Nat → α)
  | 0, entry, i, _ => (i, entry)
  | fuel + 1, entry, i, elm =>
    let child := higherChild deeper nr entry i
    if left i < nr ∧ deeper elm (entry child) = true then
      siftdown nr fuel (Function.update entry i (entry child)) child elm
    else (i, entry)

/-- The number of entries up to which no index of a child wraps. -/
def pqMost : Nat := 2 ^ 31

section
variable {n i : Nat} (hn : n ≤ pqMost) (hi : i < n)
include hn hi

theorem left_eq : left i = 2 * i + 1 := by
  unfold pqMost at hn
  exact Nat.mod_eq_of_lt (by omega)

theorem next_eq : next i = i + 1 := by
  unfold pqMost at hn
  exact Nat.mod_eq_of_lt (by omega)

theorem higherChild_cases (entry : Nat → α) (h : left i < n) :
    (higherChild deeper n entry i = 2 * i + 2 ∧ 2 * i + 2 < n ∧
      deeper (entry (2 * i + 1)) (entry (2 * i + 2)) = true) ∨
    (higherChild deeper n entry i = 2 * i + 1 ∧ 2 * i + 1 < n ∧
      ¬ (2 * i + 2 < n ∧ deeper (entry (2 * i + 1)) (entry (2 * i + 2)) = true)) := by
  have hnext := next_eq hn h
  rw [left_eq hn hi] at h hnext
  unfold higherChild
  rw [left_eq hn hi, hnext]
  split_ifs with hc
  · exact .inl ⟨rfl, hc⟩
  · exact .inr ⟨rfl, h, hc⟩

end

variable {deeper}

/-- The higher child is a child, and belongs above both children. -/
theorem higherChild_spec (hw : StrictWeak deeper) {n i : Nat} (hn : n ≤ pqMost) (hi : i < n)
    (entry : Nat → α) (h : left i < n) :
    (i < higherChild deeper n entry i ∧ higherChild deeper n entry i < n) ∧
    parent (higherChild deeper n entry i) = i ∧
    ∀ j, 0 < j → j < n → parent j = i →
      deeper (entry (higherChild deeper n entry i)) (entry j) = false := by
  have hrefl : ∀ x, deeper x x = false := fun x => by
    cases hx : deeper x x with
    | false => rfl
    | true => rw [← hx, hw.asymm hx]
  rcases higherChild_cases deeper hn hi entry h with ⟨he, hlt, hd⟩ | ⟨he, hlt, hd⟩
  · rw [he]
    refine ⟨⟨by omega, hlt⟩, by unfold parent; omega, fun j h0 hj hp => ?_⟩
    rcases (parent_eq_iff h0).1 hp with rfl | rfl
    · exact hw.asymm hd
    · exact hrefl _
  · rw [he]
    refine ⟨⟨by omega, hlt⟩, by unfold parent; omega, fun j h0 hj hp => ?_⟩
    rcases (parent_eq_iff h0).1 hp with rfl | rfl
    · exact hrefl _
    · simpa using mt (And.intro hj) hd

/-- `siftup_` finds a place for an entry that may belong above its parent. -/
theorem siftup_spec (hw : StrictWeak deeper) (n : Nat) (elm : α) (entry : Nat → α) (i : Nat)
    (hi : i < n) (h : UpTo deeper n i (Function.update entry i elm)) :
    Ordered deeper n (Function.update (siftup deeper entry i elm).2
      (siftup deeper entry i elm).1 elm) ∧
    contents n (Function.update (siftup deeper entry i elm).2 (siftup deeper entry i elm).1 elm) =
      contents n (Function.update entry i elm) := by
  induction entry, i using siftup.induct deeper elm with
  | case1 entry i hc ih =>
    have hp := parent_lt hc.1
    have hmove := fill_move entry elm hp.ne'
    have hd : deeper (Function.update entry i elm (parent i)) (Function.update entry i elm i) =
        true := by
      rw [Function.update_of_ne hp.ne, Function.update_self]
      exact hc.2
    rw [siftup, dif_pos hc]
    obtain ⟨hord, hcont⟩ := ih (by omega) (hmove ▸ h.swap hw hc.1 hi hd)
    exact ⟨hord, hcont.trans (hmove ▸ contents_swap _ hi (by omega))⟩
  | case2 entry i hc =>
    rw [siftup, dif_neg hc]
    refine ⟨h.ordered fun h0 => ?_, rfl⟩
    rw [Function.update_of_ne (parent_lt h0).ne, Function.update_self]
    simpa using mt (And.intro h0) hc

/-- `siftdown_` finds a place for an entry that may belong below its children. -/
theorem siftdown_spec (hw : StrictWeak deeper) {n : Nat} (hn : n ≤ pqMost) (elm : α) (fuel : Nat) :
    ∀ (entry : Nat → α) (i : Nat), i < n → n - i ≤ fuel →
      DownTo deeper n i (Function.update entry i elm) →
      Ordered deeper n (Function.update (siftdown deeper n fuel entry i elm).2
        (siftdown deeper n fuel entry i elm).1 elm) ∧
      contents n (Function.update (siftdown deeper n fuel entry i elm).2
        (siftdown deeper n fuel entry i elm).1 elm) = contents n (Function.update entry i elm) := by
  induction fuel with
  | zero => intro entry i hi hf; omega
  | succ fuel ih =>
    intro entry i hi hf h
    have other : ∀ j, 0 < j → parent j = i → Function.update entry i elm j = entry j :=
      fun j h0 hj => Function.update_of_ne (by have := parent_lt h0; omega) elm entry
    rw [siftdown]
    split_ifs with hc
    · obtain ⟨⟨hlt, hcn⟩, hpar, hhigh⟩ := higherChild_spec hw hn hi entry hc.1
      have hmove := fill_move entry elm hlt.ne
      have hd : deeper (Function.update entry i elm i)
          (Function.update entry i elm (higherChild deeper n entry i)) = true := by
        rw [Function.update_self, other _ (by omega) hpar]
        exact hc.2
      have hmin : ∀ j, 0 < j → j < n → parent j = i →
          deeper (Function.update entry i elm (higherChild deeper n entry i))
            (Function.update entry i elm j) = false := by
        intro j h0 hj hp
        rw [other _ (by omega) hpar, other j h0 hp]
        exact hhigh j h0 hj hp
      obtain ⟨hord, hcont⟩ := ih _ _ hcn (by omega)
        (hmove ▸ h.swap hw (by omega) hcn hpar hd hmin)
      exact ⟨hord, hcont.trans (hmove ▸ contents_swap _ hi hcn)⟩
    · refine ⟨h.ordered fun j h0 hj hp => ?_, rfl⟩
      have hleft : left i < n := by
        rw [left_eq hn hi]
        rcases (parent_eq_iff h0).1 hp <;> omega
      obtain ⟨-, -, hhigh⟩ := higherChild_spec hw hn hi entry hleft
      rw [Function.update_self, other j h0 hp]
      exact hw.trans (by simpa using mt (And.intro hleft) hc) (hhigh j h0 hj hp)

variable (deeper)

namespace Pq

/-! ## The operations -/

/-- `init`; `calloc` says whether there is memory, and `zero` what it clears an entry to. -/
def init (max : Nat) (calloc : Bool) (zero : α) : Bool × Pq α :=
  if calloc then (true, ⟨0, max, fun _ => zero⟩) else (false, ⟨0, 0, fun _ => zero⟩)

/-- `resize`; `realloc` says whether there is memory. -/
def resize (q : Pq α) (newmax : Nat) (realloc : Bool) : Bool × Pq α :=
  if newmax < q.nr then (false, q)
  else if realloc = false ∧ 0 < newmax then (false, q)
  else (true, { q with max := newmax })

def enqueue (q : Pq α) (e : α) : Bool × Pq α :=
  if q.max ≤ q.nr then (false, q)
  else
    let r := siftup deeper q.entry q.nr e
    (true, { q with nr := q.nr + 1, entry := Function.update r.2 r.1 e })

/-- `remove`: `none` where it returns 0, else the entry stored in `*dst`. -/
def remove (q : Pq α) (i : Nat) : Option α × Pq α :=
  if q.nr ≤ i then (none, q)
  else if i = q.nr - 1 then (some (q.entry i), { q with nr := q.nr - 1 })
  else
    let last := q.entry (q.nr - 1)
    let r :=
      if 0 < i ∧ deeper (q.entry (parent i)) last = true then siftup deeper q.entry i last
      else siftdown deeper (q.nr - 1) (q.nr - 1) q.entry i last
    (some (q.entry i), { q with nr := q.nr - 1, entry := Function.update r.2 r.1 last })

def dequeue (q : Pq α) : Option α × Pq α := remove deeper q 0

/-- `peek`; `none` is `NULL`. -/
def peek (q : Pq α) (i : Nat) : Option α := if i < q.nr then some (q.entry i) else none

def top (q : Pq α) : Option α := q.peek 0

/-- `is_valid`. -/
def isValid (q : Pq α) : Bool :=
  (List.range q.nr).all fun i => i = 0 || !deeper (q.entry (parent i)) (q.entry i)

/-! ## What they do -/

/-- The entries in the queue. -/
def held (q : Pq α) : Multiset α := contents q.nr q.entry

/-- The queue is a heap that fits its array, and none of its indices wraps. -/
structure Ok (q : Pq α) : Prop where
  ordered : Ordered deeper q.nr q.entry
  fits : q.nr ≤ q.max
  small : q.max ≤ pqMost

variable {deeper}

@[simp] theorem card_held (q : Pq α) : q.held.card = q.nr := card_contents ..

theorem isValid_iff (q : Pq α) : q.isValid deeper = true ↔ Ordered deeper q.nr q.entry := by
  simp only [isValid, List.all_eq_true, List.mem_range, Bool.or_eq_true, decide_eq_true_eq,
    Bool.not_eq_true']
  constructor
  · intro h i h0 hi
    exact (h i hi).resolve_left (by omega)
  · intro h i hi
    rcases Nat.eq_zero_or_pos i with h0 | h0
    · exact .inl h0
    · exact .inr (h i h0 hi)

theorem enqueue_spec (hw : StrictWeak deeper) {q : Pq α} (h : q.Ok deeper) (e : α) :
    (q.enqueue deeper e).2.Ok deeper ∧ (q.enqueue deeper e).2.max = q.max ∧
    ((q.enqueue deeper e).1 = true ↔ q.nr < q.max) ∧
    (q.enqueue deeper e).2.held =
      if (q.enqueue deeper e).1 = true then e ::ₘ q.held else q.held := by
  by_cases hfull : q.max ≤ q.nr
  · rw [enqueue, if_pos hfull]
    exact ⟨h, rfl, by simp [hfull], rfl⟩
  · rw [enqueue, if_neg hfull]
    have hup : UpTo deeper (q.nr + 1) q.nr (Function.update q.entry q.nr e) := by
      constructor
      · intro j h0 hj hne
        have hp := parent_lt h0
        rw [Function.update_of_ne hne, Function.update_of_ne (by omega)]
        exact h.ordered j h0 (by omega)
      · intro _ j h0 hj hp
        have := parent_lt h0
        omega
    obtain ⟨hord, hcont⟩ := siftup_spec hw (q.nr + 1) e q.entry q.nr (by omega) hup
    refine ⟨⟨hord, by show q.nr + 1 ≤ q.max; omega, h.small⟩, rfl, by simp; omega, hcont.trans ?_⟩
    rw [contents_succ, Function.update_self]
    exact congrArg _ (contents_congr fun i hi => Function.update_of_ne hi.ne e q.entry)

theorem contents_replaced {n i : Nat} (a : Nat → α) (hi : i < n) :
    contents (n + 1) a = a i ::ₘ contents n (Function.update a i (a n)) := by
  rw [contents_succ, contents_update a hi]

theorem remove_spec (hw : StrictWeak deeper) {q : Pq α} (h : q.Ok deeper) {i : Nat}
    (hi : i < q.nr) :
    (q.remove deeper i).1 = some (q.entry i) ∧ (q.remove deeper i).2.Ok deeper ∧
    (q.remove deeper i).2.max = q.max ∧
    q.held = q.entry i ::ₘ (q.remove deeper i).2.held := by
  obtain ⟨n, hn⟩ : ∃ n, q.nr = n + 1 := ⟨q.nr - 1, by omega⟩
  have hord := h.ordered
  have hfits := h.fits
  have hsmall := h.small
  rw [hn] at hord hfits
  have hkept : Ordered deeper n q.entry := hord.mono (by omega)
  unfold remove
  simp only [hn, Nat.add_sub_cancel, if_neg (show ¬ n + 1 ≤ i by omega)]
  split_ifs with hlast hup
  · subst hlast
    exact ⟨rfl, ⟨hkept, by show i ≤ q.max; omega, hsmall⟩, rfl, by rw [held, hn, contents_succ]; rfl⟩
  · have hin : i < n := by omega
    -- the last entry belongs above the parent of `i`, so it belongs above the children of `i`
    have hskip : ∀ j, 0 < j → j < n → parent j = i → deeper (q.entry (parent i)) (q.entry j) =
        false := fun j h0 hj hp => hw.trans (hkept i hup.1 hin) (hp ▸ hkept j h0 hj)
    have hfault : UpTo deeper n i (Function.update q.entry i (q.entry n)) := by
      constructor
      · intro j h0 hj hne
        rw [Function.update_of_ne hne]
        by_cases hp : parent j = i
        · rw [hp, Function.update_self]
          exact hw.trans (hw.asymm hup.2) (hskip j h0 hj hp)
        · rw [Function.update_of_ne hp]
          exact hkept j h0 hj
      · intro h0 j hj0 hj hp
        have := parent_lt h0
        rw [Function.update_of_ne (by omega),
          Function.update_of_ne (by have := parent_lt hj0; omega)]
        exact hskip j hj0 hj hp
    obtain ⟨hheap, hcont⟩ := siftup_spec hw n (q.entry n) q.entry i hin hfault
    refine ⟨rfl, ⟨hheap, by show n ≤ q.max; omega, hsmall⟩, rfl, ?_⟩
    rw [held, hn, contents_replaced q.entry hin, ← hcont]
    rfl
  · have hin : i < n := by omega
    have hfault : DownTo deeper n i (Function.update q.entry i (q.entry n)) := by
      constructor
      · intro j h0 hj hp
        rw [Function.update_of_ne hp]
        by_cases hji : j = i
        · subst hji
          rw [Function.update_self]
          simpa using mt (And.intro h0) hup
        · rw [Function.update_of_ne hji]
          exact hkept j h0 hj
      · intro h0 j hj0 hj hp
        have := parent_lt h0
        rw [Function.update_of_ne (by omega),
          Function.update_of_ne (by have := parent_lt hj0; omega)]
        exact hw.trans (hkept i h0 hin) (hp ▸ hkept j hj0 hj)
    obtain ⟨hheap, hcont⟩ := siftdown_spec hw (show n ≤ pqMost by omega) (q.entry n) n q.entry i hin
      (by omega) hfault
    refine ⟨rfl, ⟨hheap, by show n ≤ q.max; omega, hsmall⟩, rfl, ?_⟩
    rw [held, hn, contents_replaced q.entry hin, ← hcont]
    rfl

theorem dequeue_spec (hw : StrictWeak deeper) {q : Pq α} (h : q.Ok deeper) (hn : 0 < q.nr) :
    ∃ e, q.top = some e ∧ (q.dequeue deeper).1 = some e ∧ (q.dequeue deeper).2.Ok deeper ∧
      (q.dequeue deeper).2.max = q.max ∧ q.held = e ::ₘ (q.dequeue deeper).2.held ∧
      ∀ x ∈ q.held, deeper e x = false := by
  obtain ⟨hans, hok, hmax, hheld⟩ := remove_spec hw h hn
  refine ⟨q.entry 0, if_pos hn, hans, hok, hmax, hheld, fun x hx => ?_⟩
  obtain ⟨i, hi, he⟩ := mem_contents.1 hx
  exact he ▸ h.ordered.root hw hi

theorem resize_spec {q : Pq α} (h : q.Ok deeper) {newmax : Nat} (hnew : newmax ≤ pqMost)
    (realloc : Bool) :
    (q.resize newmax realloc).2.Ok deeper ∧ (q.resize newmax realloc).2.held = q.held ∧
    ((q.resize newmax realloc).1 = true → q.nr ≤ newmax ∧
      (q.resize newmax realloc).2.max = newmax) ∧
    ((q.resize newmax realloc).1 = false → (q.resize newmax realloc).2.max = q.max) := by
  unfold resize
  split_ifs with hlt hmem
  · exact ⟨h, rfl, by simp, fun _ => rfl⟩
  · exact ⟨h, rfl, by simp, fun _ => rfl⟩
  · exact ⟨⟨h.ordered, by show q.nr ≤ newmax; omega, hnew⟩, rfl, fun _ => ⟨by omega, rfl⟩, by simp⟩

end Pq

/-! ## The bag -/

inductive PqOp (α : Type)
  | enqueue (e : α)
  | dequeue
  | remove (i : Nat)
  | top
  | resize (newmax : Nat) (realloc : Bool)

inductive PqAnswer (α : Type)
  | code (ok : Bool)
  | entry (e : Option α)

def Pq.exec (q : Pq α) : PqOp α → PqAnswer α × Pq α
  | .enqueue e => (.code (q.enqueue deeper e).1, (q.enqueue deeper e).2)
  | .dequeue => (.entry (q.dequeue deeper).1, (q.dequeue deeper).2)
  | .remove i => (.entry (q.remove deeper i).1, (q.remove deeper i).2)
  | .top => (.entry q.top, q)
  | .resize newmax realloc => (.code (q.resize newmax realloc).1, (q.resize newmax realloc).2)

/-- The operations of a run with their answers, and the queue at its end. -/
def Pq.run (q : Pq α) : List (PqOp α) → List (PqOp α × PqAnswer α) × Pq α
  | [] => ([], q)
  | op :: ops => ((op, (q.exec deeper op).1) :: ((q.exec deeper op).2.run ops).1,
      ((q.exec deeper op).2.run ops).2)

/-- The operation asks for no more room than indices reach. -/
def PqOp.Small : PqOp α → Prop
  | .resize newmax _ => newmax ≤ pqMost
  | _ => True

/-- A bag with room for `room` entries. -/
structure Bag (α : Type) where
  held : Multiset α
  room : Nat

/-- `x` belongs at or above every entry of the bag. -/
def Bag.First (b : Bag α) (x : α) : Prop := x ∈ b.held ∧ ∀ y ∈ b.held, deeper x y = false

/-- What an operation on the bag may answer, and what it leaves. -/
inductive Bag.Step : Bag α → PqOp α → PqAnswer α → Bag α → Prop
  | enqueue {b : Bag α} {e : α} (h : b.held.card < b.room) :
    Step b (.enqueue e) (.code true) { b with held := e ::ₘ b.held }
  | full {b : Bag α} {e : α} (h : b.held.card = b.room) : Step b (.enqueue e) (.code false) b
  | dequeue {b : Bag α} {x : α} {rest : Multiset α} (h : b.held = x ::ₘ rest)
      (hx : b.First deeper x) : Step b .dequeue (.entry (some x)) { b with held := rest }
  | remove {b : Bag α} {i : Nat} {x : α} {rest : Multiset α} (hi : i < b.held.card)
      (h : b.held = x ::ₘ rest) : Step b (.remove i) (.entry (some x)) { b with held := rest }
  | beyond {b : Bag α} {i : Nat} (hi : b.held.card ≤ i) : Step b (.remove i) (.entry none) b
  | top {b : Bag α} {x : α} (hx : b.First deeper x) : Step b .top (.entry (some x)) b
  | empty {b : Bag α} {op : PqOp α} (h : b.held = 0) (hop : op = .dequeue ∨ op = .top) :
    Step b op (.entry none) b
  | resize {b : Bag α} {newmax : Nat} (h : b.held.card ≤ newmax) :
    Step b (.resize newmax true) (.code true) { b with room := newmax }
  | release {b : Bag α} (h : b.held = 0) :
    Step b (.resize 0 false) (.code true) { b with room := 0 }
  | kept {b : Bag α} {newmax : Nat} {realloc : Bool}
      (h : newmax < b.held.card ∨ (realloc = false ∧ 0 < newmax)) :
    Step b (.resize newmax realloc) (.code false) b

inductive Bag.Runs : Bag α → List (PqOp α × PqAnswer α) → Bag α → Prop
  | nil (b : Bag α) : Runs b [] b
  | cons {b b' b'' : Bag α} {op : PqOp α} {ans : PqAnswer α} {rest : List (PqOp α × PqAnswer α)}
      (h : b.Step deeper op ans b') (hs : Runs b' rest b'') : Runs b ((op, ans) :: rest) b''

def Pq.bag (q : Pq α) : Bag α := ⟨q.held, q.max⟩

variable {deeper}

/-- One operation of the queue is one of the bag. -/
theorem Pq.exec_refines (hw : StrictWeak deeper) {q : Pq α} (h : q.Ok deeper) {op : PqOp α}
    (hop : op.Small) :
    (q.exec deeper op).2.Ok deeper ∧
    q.bag.Step deeper op (q.exec deeper op).1 (q.exec deeper op).2.bag := by
  have hcard : q.bag.held.card = q.nr := q.card_held
  have hzero : q.nr = 0 → q.bag.held = 0 := fun h0 => Multiset.card_eq_zero.1 (hcard.trans h0)
  cases op with
  | enqueue e =>
    obtain ⟨hok, hmax, hans, hheld⟩ := enqueue_spec hw h e
    refine ⟨hok, ?_⟩
    simp only [exec, bag, hmax, hheld]
    by_cases hlt : q.nr < q.max
    · rw [if_pos (hans.2 hlt), hans.2 hlt]
      exact .enqueue (by simpa using hlt)
    · rw [if_neg (mt hans.1 hlt), Bool.eq_false_iff.2 (mt hans.1 hlt)]
      exact .full (by have := h.fits; simp; omega)
  | dequeue =>
    rcases Nat.eq_zero_or_pos q.nr with h0 | h0
    · have hnone : q.dequeue deeper = (none, q) := by rw [dequeue, remove, if_pos (by omega)]
      simp only [exec, hnone]
      exact ⟨h, .empty (hzero h0) (.inl rfl)⟩
    · obtain ⟨e, -, hans, hok, hmax, hheld, hfirst⟩ := dequeue_spec hw h h0
      refine ⟨hok, ?_⟩
      simp only [exec, bag, hans, hmax]
      have hmem : e ∈ q.held := hheld ▸ Multiset.mem_cons_self e _
      exact .dequeue hheld ⟨hmem, hfirst⟩
  | remove i =>
    rcases Nat.lt_or_ge i q.nr with hi | hi
    · obtain ⟨hans, hok, hmax, hheld⟩ := remove_spec hw h hi
      refine ⟨hok, ?_⟩
      simp only [exec, bag, hans, hmax]
      exact .remove (by simpa using hi) hheld
    · have hnone : q.remove deeper i = (none, q) := by rw [remove, if_pos hi]
      simp only [exec, hnone]
      exact ⟨h, .beyond (by omega)⟩
  | top =>
    refine ⟨h, ?_⟩
    rcases Nat.eq_zero_or_pos q.nr with h0 | h0
    · simp only [exec, top, peek, if_neg (show ¬ 0 < q.nr by omega)]
      exact .empty (hzero h0) (.inr rfl)
    · obtain ⟨e, htop, -, -, -, hheld, hfirst⟩ := dequeue_spec hw h h0
      simp only [exec, htop]
      have hmem : e ∈ q.held := hheld ▸ Multiset.mem_cons_self e _
      exact .top ⟨hmem, hfirst⟩
  | resize newmax realloc =>
    obtain ⟨hok, hheld, hyes, hno⟩ := resize_spec h hop realloc
    refine ⟨hok, ?_⟩
    simp only [exec, bag, hheld]
    unfold resize at *
    split_ifs at * with hlt hmem
    · exact .kept (.inl (by simpa using hlt))
    · exact .kept (.inr hmem)
    · cases realloc with
      | true => exact .resize (by simp; omega)
      | false =>
        obtain rfl : newmax = 0 := by simpa using hmem
        exact .release (hzero (by omega))

theorem Pq.run_refines (hw : StrictWeak deeper) {ops : List (PqOp α)} (hops : ∀ op ∈ ops, op.Small) :
    ∀ {q : Pq α}, q.Ok deeper → (q.run deeper ops).2.Ok deeper ∧
      q.bag.Runs deeper (q.run deeper ops).1 (q.run deeper ops).2.bag := by
  induction ops with
  | nil => exact fun h => ⟨h, .nil _⟩
  | cons op ops ih =>
    intro q h
    obtain ⟨hop, hops⟩ := List.forall_mem_cons.1 hops
    obtain ⟨hok, hstep⟩ := exec_refines hw h hop
    obtain ⟨hend, hruns⟩ := ih hops hok
    exact ⟨hend, .cons hstep hruns⟩

/-- **The queue is a bounded bag**: each answer of any run, from an empty queue, is one that the
bag gives, and `is_valid` holds at its end. The array has at most 2^31 entries all the time. -/
theorem queue_refines_bag (hw : StrictWeak deeper) {max : Nat} (hmax : max ≤ pqMost) (zero : α)
    {ops : List (PqOp α)} (hops : ∀ op ∈ ops, op.Small) :
    Bag.Runs deeper ⟨0, max⟩ ((Pq.init max true zero).2.run deeper ops).1
      ((Pq.init max true zero).2.run deeper ops).2.bag ∧
    ((Pq.init max true zero).2.run deeper ops).2.isValid deeper = true := by
  have hinit : (Pq.init max true zero).2.Ok deeper :=
    ⟨fun i _ hi => absurd hi (Nat.not_lt_zero i), Nat.zero_le max, hmax⟩
  obtain ⟨hok, hruns⟩ := Pq.run_refines hw hops hinit
  exact ⟨hruns, (Pq.isValid_iff _).2 hok.ordered⟩

instance (op : PqOp α) : Decidable op.Small := by
  unfold PqOp.Small
  split <;> infer_instance

/-- Three deadlines go in; the queue of two takes the first two and gives back the earlier. -/
theorem queue_of_two :
    Bag.Runs (fun x y : Nat => decide (y < x)) ⟨0, 2⟩
      ((Pq.init 2 true 0).2.run (fun x y : Nat => decide (y < x))
        [.enqueue 7, .enqueue 5, .enqueue 3, .dequeue, .resize 4 true]).1
      ((Pq.init 2 true 0).2.run (fun x y : Nat => decide (y < x))
        [.enqueue 7, .enqueue 5, .enqueue 3, .dequeue, .resize 4 true]).2.bag ∧
    ((Pq.init 2 true 0).2.run (fun x y : Nat => decide (y < x))
      [.enqueue 7, .enqueue 5, .enqueue 3, .dequeue, .resize 4 true]).2.isValid
        (fun x y => decide (y < x)) = true :=
  queue_refines_bag (StrictWeak.of_key id) (by decide) 0 (by decide)

end

end Netchan.Iox
