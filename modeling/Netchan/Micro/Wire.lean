import Netchan.Micro.Core

/-!
# Packets of microchan

`Rec` is a record of a DATA packet. `recordsOf` is what the record loop of `mc_feed` finds in one
and delivers (`feedRecords_eq`): exactly the records that were written (`recordsOf_encode`).
-/

namespace Netchan.Micro

open Lib

/-! ## Records -/

/-- A record of a DATA packet. -/
structure Rec where
  chan : UInt8
  mt : UInt8
  seq : UInt16
  data : List UInt8
  deriving DecidableEq

/-- The bytes of a list of records. -/
def encodeRecs (rs : List Rec) : List UInt8 := rs.flatMap fun r => record r.chan r.mt r.seq r.data

@[simp] theorem encodeRecs_nil : encodeRecs [] = [] := rfl

@[simp] theorem encodeRecs_cons (r : Rec) (rs : List Rec) :
    encodeRecs (r :: rs) = record r.chan r.mt r.seq r.data ++ encodeRecs rs := rfl

@[simp] theorem encodeRecs_append (rs rs' : List Rec) :
    encodeRecs (rs ++ rs') = encodeRecs rs ++ encodeRecs rs' := by simp [encodeRecs]

theorem length_record (ch mt : UInt8) (seq : UInt16) (data : List UInt8) :
    (record ch mt seq data).length = 6 + data.length := by
  simp [record]
  omega

/-- A record is delivered. -/
def deliverRec (c : Mc) (r : Rec) : Mc := deliver c r.chan r.mt r.seq r.data

/-- The records that the loop of `mc_feed` finds in the rest of a packet. -/
def recordsOf : Nat → List UInt8 → List Rec
  | 0, _ => []
  | fuel + 1, q =>
    if q.length < mcRec then []
    else
      let dlen := (rd16 q 4).toNat
      if q.length < mcRec + dlen then []
      else
        ⟨byte q 0, byte q 1, rd16 q 2, (q.drop mcRec).take dlen⟩ ::
          recordsOf fuel (q.drop (mcRec + dlen))

/-- **The record loop delivers the records it finds**, one after the other. -/
theorem feedRecords_eq : ∀ (fuel : Nat) (c : Mc) (q : List UInt8),
    feedRecords fuel c q = (recordsOf fuel q).foldl deliverRec c
  | 0, _, _ => rfl
  | fuel + 1, c, q => by
    unfold feedRecords recordsOf
    split
    · rfl
    dsimp only
    split
    · rfl
    · rw [feedRecords_eq fuel]
      rfl

/-- **The loop finds what was written.** -/
theorem recordsOf_encode : ∀ (rs : List Rec) (fuel : Nat),
    (∀ r ∈ rs, r.data.length < 2 ^ 16) → (encodeRecs rs).length ≤ fuel →
    recordsOf fuel (encodeRecs rs) = rs
  | [], 0, _, _ => rfl
  | [], fuel + 1, _, _ => by simp [recordsOf]
  | r :: rs, 0, _, hf => by
    rw [encodeRecs_cons, List.length_append, length_record] at hf
    omega
  | r :: rs, fuel + 1, hr, hf => by
    have hlen : (UInt16.ofNat r.data.length).toNat = r.data.length := by
      rw [UInt16.toNat_ofNat', Nat.mod_eq_of_lt (hr r (.head _))]
    rw [encodeRecs_cons, List.length_append, length_record] at hf
    have hq : encodeRecs (r :: rs) = r.chan :: r.mt :: (wr16 r.seq ++
        (wr16 (UInt16.ofNat r.data.length) ++ (r.data ++ encodeRecs rs))) := by
      simp [record]
    have e1 : rd16 (encodeRecs (r :: rs)) 2 = r.seq := by
      rw [hq]
      exact rd16_wr16 _ (wr16 (UInt16.ofNat r.data.length) ++ (r.data ++ encodeRecs rs))
    have e2 : rd16 (encodeRecs (r :: rs)) 4 = UInt16.ofNat r.data.length := by
      rw [hq]
      exact rd16_wr16 _ (r.data ++ encodeRecs rs)
    have e3 : (encodeRecs (r :: rs)).drop mcRec = r.data ++ encodeRecs rs := by
      rw [hq]
      rfl
    have hl : (encodeRecs (r :: rs)).length = 6 + r.data.length + (encodeRecs rs).length := by
      rw [encodeRecs_cons, List.length_append, length_record]
    have hd : (encodeRecs (r :: rs)).drop (mcRec + r.data.length) = encodeRecs rs := by
      rw [← List.drop_drop, e3, List.drop_left]
    rw [recordsOf, if_neg (show ¬ _ < 6 by omega)]
    dsimp only
    rw [e2, hlen, if_neg (show ¬ _ < 6 + r.data.length by omega), e1, hd, e3, List.take_left,
      recordsOf_encode rs fuel (fun x hx => hr x (.tail _ hx)) (by omega)]
    rw [hq]
    rfl

theorem feedRecords_encode (rs : List Rec) (fuel : Nat) (c : Mc)
    (hr : ∀ r ∈ rs, r.data.length < 2 ^ 16) (hf : (encodeRecs rs).length ≤ fuel) :
    feedRecords fuel c (encodeRecs rs) = rs.foldl deliverRec c := by
  rw [feedRecords_eq, recordsOf_encode rs fuel hr hf]

theorem deliver_state (c : Mc) (chan mt : UInt8) (seq : UInt16) (data : List UInt8) :
    (deliver c chan mt seq data).state = c.state := by
  unfold deliver pushData
  simp only [evPush_eq]
  repeat' split
  all_goals rfl

theorem feedRecords_state : ∀ (fuel : Nat) (c : Mc) (q : List UInt8),
    (feedRecords fuel c q).state = c.state
  | 0, _, _ => rfl
  | fuel + 1, c, q => by
    unfold feedRecords
    split
    · rfl
    dsimp only
    split
    · rfl
    · rw [feedRecords_state fuel, deliver_state]

/-! ## Headers -/

section
variable (id : UInt32) (ptype : UInt8) (ack : UInt16) (body : List UInt8)

theorem byte_header : byte (header id ptype ack ++ body) 4 = ptype := rfl

theorem rd16_header : rd16 (header id ptype ack ++ body) 6 = ack := rd16_wr16 ack body

theorem rd32_header : rd32 (header id ptype ack ++ body) 0 = id :=
  rd32_wr32 id ([ptype, 0] ++ wr16 ack ++ body)

theorem drop_header : (header id ptype ack ++ body).drop mcHdr = body := rfl

theorem length_header : (header id ptype ack ++ body).length = 8 + body.length := by
  simp [header]
  omega

end

/-- **A DATA packet for a connected end**: its acknowledgement, then its records. -/
theorem mcFeed_data {c : Mc} (h : c.state = .connected) (ack : UInt16) {rs : List Rec}
    (hrs : ∀ r ∈ rs, r.data.length < 2 ^ 16) (source : Option Addr) :
    mcFeed c (header c.localId 4 ack ++ encodeRecs rs) source =
      (.ok (), rs.foldl deliverRec (processAck { c with lastRecv := c.now } ack)) := by
  have hlen := length_header c.localId 4 ack (encodeRecs rs)
  have hid := rd32_header c.localId 4 ack (encodeRecs rs)
  have htype : (byte (header c.localId 4 ack ++ encodeRecs rs) 4).toNat = 4 := by
    rw [byte_header]
    rfl
  have hack := rd16_header c.localId 4 ack (encodeRecs rs)
  have hbody := drop_header c.localId 4 ack (encodeRecs rs)
  generalize header c.localId 4 ack ++ encodeRecs rs = pkt at *
  have hup : dataUp { c with lastRecv := c.now } = { c with lastRecv := c.now } := by
    rw [dataUp, if_neg]
    intro hc
    exact absurd (h.symm.trans hc.2) (by decide)
  have hlong : ¬ pkt.length < mcHdr := by
    rw [hlen]
    exact Nat.not_lt.2 (Nat.le_add_right ..)
  simp only [mcFeed, if_neg hlong, htype]
  rw [feedData, if_neg (fun hn => hn hid), hup, hack, hbody, hlen]
  dsimp only
  rw [if_neg (fun hn => hn h), feedRecords_encode rs _ _ hrs (by simp only [mcHdr]; omega)]

/-! ## The records of a packet -/

/-- The record of a queued unreliable datagram. -/
def unrelRec (m : UInt8 × List UInt8) : Rec := ⟨m.1, mtUnrel, 0, m.2⟩

theorem sendUnrel_eq (cap : Nat) : ∀ (txu : List (UInt8 × List UInt8)) (pos : Nat),
    ∃ l, txu = l ++ (sendUnrel cap txu pos).1 ∧
      (sendUnrel cap txu pos).2 = encodeRecs (l.map unrelRec)
  | [], _ => ⟨[], rfl, rfl⟩
  | (ch, m) :: txu, pos => by
    unfold sendUnrel
    split
    · exact ⟨[], rfl, rfl⟩
    · obtain ⟨l, h1, h2⟩ := sendUnrel_eq cap txu (pos + (mcRec + m.length))
      refine ⟨(ch, m) :: l, ?_, ?_⟩
      · rw [List.cons_append, ← h1]
      · dsimp only
        rw [h2]
        rfl

/-- A ring of which nothing goes into the packet has a datagram at its head that does not fit. -/
theorem sendUnrel_stops {cap pos : Nat} {txu : List (UInt8 × List UInt8)} {m : UInt8 × List UInt8}
    (hm : m ∈ txu.head?) (h : (sendUnrel cap txu pos).1 = txu) :
    cap < pos + (mcRec + m.2.length) := by
  cases txu with
  | nil => cases hm
  | cons x rest =>
    obtain rfl : x = m := by simpa using hm
    by_contra hfit
    obtain ⟨ch, data⟩ := x
    obtain ⟨l, hl, -⟩ := sendUnrel_eq cap rest (pos + (mcRec + data.length))
    rw [sendUnrel, if_neg hfit] at h
    have hlen := congrArg List.length h
    have hlen' := congrArg List.length hl
    simp only [List.length_append, List.length_cons] at hlen hlen'
    omega

end Netchan.Micro
