import Netchan.Lib.Clock
import Netchan.Proof.Ack
import Netchan.Proof.Session

/-!
# The clock of a connection

A connection reads a free running 32-bit millisecond clock, through `nc_now_ms` and the argument of
`netchan_service`. Two runs of the same calls whose clocks differ by a constant `k` look the same
(`clock_origin_unseen`) as long as no time that is kept is read as 0 in one of them only: every
field that holds a time is 0 for "never". The condition `ClockOk` names the calls that keep a time,
and those that draw an id while there is no entropy source, which mixes in the clock.

`Conn.retime` replaces the times of a connection, `Shifted` relates the times of the two runs; a
channel keeps the time of each message's last transmission, which `Chan.stamped` replaces.
-/

namespace Netchan

open Lib

/-! ## The times of a channel -/

/-- The sender state with other times in its slots. -/
def Sender.stamped (s : Sender) (f : Fin ncOutgoingSlots → UInt32) : Sender :=
  { s with outgoing := fun i => { s.outgoing i with sentMs := f i } }

def Chan.stamped (ch : Chan) (f : Fin ncOutgoingSlots → UInt32) : Chan :=
  { ch with snd := ch.snd.stamped f }

/-- The slots of the two runs carry the same times. -/
def Stamps (k : UInt32) (s : Sender) (f : Fin ncOutgoingSlots → UInt32) : Prop :=
  ∀ i, Stamp k (s.outgoing i).sentMs (f i)

/-- The channel `ch'` of the one run looks like `ch` of the other. -/
def ChanAlike (k : UInt32) (ch ch' : Chan) : Prop := ∃ f, ch' = ch.stamped f ∧ Stamps k ch.snd f

/-- The channels of the two runs look alike. -/
def TableAlike (k : UInt32) (t t' : Table) : Prop := ∀ id, Option.Rel (ChanAlike k) (t id) (t' id)

section
variable {k : UInt32}

theorem Sender.stamped_self (s : Sender) : s.stamped (fun i => (s.outgoing i).sentMs) = s := rfl

theorem Sender.stamped_update (s : Sender) (f : Fin ncOutgoingSlots → UInt32)
    (i : Fin ncOutgoingSlots) (o : Outgoing) (x : UInt32) :
    Function.update (s.stamped f).outgoing i { o with sentMs := x } =
      (Sender.stamped { s with outgoing := Function.update s.outgoing i o }
        (Function.update f i x)).outgoing := by
  funext j
  by_cases hj : j = i
  · subst hj
    simp [Sender.stamped]
  · simp [Sender.stamped, hj]

theorem Stamps.update {s : Sender} {f : Fin ncOutgoingSlots → UInt32} (h : Stamps k s f)
    (i : Fin ncOutgoingSlots) {o : Outgoing} {x : UInt32} (hx : Stamp k o.sentMs x) :
    Stamps k { s with outgoing := Function.update s.outgoing i o } (Function.update f i x) := by
  intro j
  by_cases hj : j = i
  · subst hj
    simpa using hx
  · simpa [hj] using h j

/-- A slot is written, its time excepted. -/
theorem Sender.stamped_keep (s : Sender) (f : Fin ncOutgoingSlots → UInt32)
    (i : Fin ncOutgoingSlots) (o : Outgoing) :
    Function.update (s.stamped f).outgoing i { o with sentMs := f i } =
      (Sender.stamped { s with outgoing := Function.update s.outgoing i o } f).outgoing := by
  rw [Sender.stamped_update, Function.update_eq_self]

theorem ChanAlike.fresh {ch : Chan} (h : ∀ i, (ch.snd.outgoing i).sentMs = 0) :
    ChanAlike k ch ch := by
  refine ⟨fun i => (ch.snd.outgoing i).sentMs, rfl, fun i => ?_⟩
  show Stamp k _ (ch.snd.outgoing i).sentMs
  rw [h i]
  exact .unset k

theorem TableAlike.set {t t' : Table} (h : TableAlike k t t') (id : ChanId) {ch ch' : Chan}
    (hc : ChanAlike k ch ch') : TableAlike k (t.set id ch) (t'.set id ch') := by
  intro j
  by_cases hj : j = id
  · subst hj
    rw [Table.set_same, Table.set_same]
    exact .some hc
  · rw [Table.set_of_ne _ hj, Table.set_of_ne _ hj]
    exact h j

theorem TableAlike.isSome {t t' : Table} (h : TableAlike k t t') (id : ChanId) :
    (t' id).isSome = (t id).isSome := by
  have := h id
  revert this
  cases t id <;> cases t' id <;> intro this <;> cases this <;> rfl

/-! ## Functions of a channel -/

theorem outAdvance_stamped (f : Fin ncOutgoingSlots → UInt32) : ∀ (fuel : Nat) (s : Sender),
    outAdvance fuel (s.stamped f) = (outAdvance fuel s).stamped f
  | 0, _ => rfl
  | fuel + 1, s => by
    unfold outAdvance
    refine rel_ite (R := fun a b : Sender => b = a.stamped f) (fun _ => ?_) fun _ => rfl
    exact outAdvance_stamped f fuel { s with outHead := s.outHead + 1 }

theorem ackSlot_stamped (f : Fin ncOutgoingSlots → UInt32) (acked : UInt16) (p : Pool) (s : Sender)
    (i : Fin ncOutgoingSlots) :
    ackSlot acked (p, s.stamped f) i =
      ((ackSlot acked (p, s) i).1, (ackSlot acked (p, s) i).2.stamped f) := by
  unfold ackSlot
  refine rel_ite (R := fun a b : Pool × Sender => b = (a.1, a.2.stamped f)) (fun _ => ?_)
    fun _ => rfl
  refine Prod.ext rfl ?_
  have := s.stamped_keep f i { s.outgoing i with buf := none, active := false }
  exact congrArg (fun o => { s with
    bytesInFlight := s.bytesInFlight - UInt32.ofNat (s.outgoing i).len
    msgsAcked := s.msgsAcked + 1
    outgoing := o }) this

theorem ackSlots_stamped (f : Fin ncOutgoingSlots → UInt32) (acked : UInt16) :
    ∀ (is : List (Fin ncOutgoingSlots)) (p : Pool) (s : Sender),
      is.foldl (ackSlot acked) (p, s.stamped f) =
        ((is.foldl (ackSlot acked) (p, s)).1, (is.foldl (ackSlot acked) (p, s)).2.stamped f)
  | [], _, _ => rfl
  | i :: is, p, s => by
    rw [List.foldl_cons, List.foldl_cons, ackSlot_stamped]
    exact ackSlots_stamped f acked is _ _

theorem ackSlots_stamps {s : Sender} {f : Fin ncOutgoingSlots → UInt32} (h : Stamps k s f)
    (acked : UInt16) (is : List (Fin ncOutgoingSlots)) (p : Pool) :
    Stamps k (is.foldl (ackSlot acked) (p, s)).2 f := by
  intro i
  have hsame := ackSlots_stamped (fun i => (s.outgoing i).sentMs) acked is p s
  rw [Sender.stamped_self] at hsame
  have hi : ((is.foldl (ackSlot acked) (p, s)).2.outgoing i).sentMs = (s.outgoing i).sentMs :=
    congrArg (fun r => (r.2.outgoing i).sentMs) hsame
  rw [hi]
  exact h i

/-- The clock reads 0 in both runs or in neither. -/
def Reads (k now : UInt32) : Prop := now = 0 ↔ now + k = 0

instance (k now : UInt32) : Decidable (Reads k now) := inferInstanceAs (Decidable (_ ↔ _))

theorem chanSent_alike {now : UInt32} (hr : Reads k now) (p : Pool) {ch ch' : Chan}
    (h : ChanAlike k ch ch') (i : Fin ncOutgoingSlots) :
    (chanSent (now + k) p ch' i).1 = (chanSent now p ch i).1 ∧
      ChanAlike k (chanSent now p ch i).2 (chanSent (now + k) p ch' i).2 := by
  obtain ⟨f, rfl, h⟩ := h
  have hx : Stamp k ((ch.snd.outgoing i).sent now).sentMs (now + k) := .reading hr
  unfold chanSent
  refine rel_ite (R := fun a b : Pool × Chan => b.1 = a.1 ∧ ChanAlike k a.2 b.2) (fun _ => ?_)
    fun _ => ?_
  · have he := ch.snd.stamped_update f i
      { (ch.snd.outgoing i).sent now with buf := none, active := false } (now + k)
    refine ⟨rfl, Function.update f i (now + k), ?_, fun j => ?_⟩
    · have := congrArg (fun o => { ch with
        snd := outAdvance ncOutgoingSlots { ch.snd with outgoing := o } }) he
      exact this.trans (congrArg (fun s => { ch with snd := s })
        (outAdvance_stamped (Function.update f i (now + k)) ncOutgoingSlots { ch.snd with
          outgoing := Function.update ch.snd.outgoing i
            { (ch.snd.outgoing i).sent now with buf := none, active := false } }))
    · rw [outAdvance_outgoing]
      exact h.update i (o := { (ch.snd.outgoing i).sent now with buf := none, active := false })
        hx j
  · refine ⟨rfl, Function.update f i (now + k), ?_, h.update i hx⟩
    have := ch.snd.stamped_update f i ((ch.snd.outgoing i).sent now) (now + k)
    exact congrArg (fun o => { ch with snd := { ch.snd with outgoing := o } }) this

/-! ## Timers -/

/-- The slot's message is sent again by a `netchan_service` at `now`. -/
def Outgoing.Requeues (o : Outgoing) (cfg : Cfg) (now : UInt32) : Prop :=
  o.Due cfg now ∧ o.attempts < ncMaxRtAttempts

instance (o : Outgoing) (cfg : Cfg) (now : UInt32) : Decidable (o.Requeues cfg now) :=
  inferInstanceAs (Decidable (_ ∧ _))

/-- The slots of a channel, and what `netchan_service` found there, look alike. -/
def SlotsAlike (k : UInt32) (r r' : Sender × Bool × Int) : Prop :=
  ∃ f, r' = (r.1.stamped f, r.2) ∧ Stamps k r.1 f

theorem serviceSlots_alike (cfg : Cfg) {now : UInt32} : ∀ (js : List (Fin ncOutgoingSlots))
    (s : Sender) (n : Int) (f : Fin ncOutgoingSlots → UInt32), Stamps k s f →
    (Reads k now ∨ ∀ i, ¬ (s.outgoing i).Requeues cfg now) →
    SlotsAlike k (serviceSlots cfg now js s n) (serviceSlots cfg (now + k) js (s.stamped f) n)
  | [], _, _, f, h, _ => ⟨f, rfl, h⟩
  | j :: js, s, n, f, h, hr => by
    have hskip := fun m => serviceSlots_alike cfg js s m f h hr
    have hz : ((s.stamped f).outgoing j).sentMs = 0 ↔ (s.outgoing j).sentMs = 0 := (h j).1
    have ha : ((s.stamped f).outgoing j).active = (s.outgoing j).active := rfl
    unfold serviceSlots
    refine rel_ite_iff (by simp [ha, hz]) (fun _ => hskip n) fun h1 => ?_
    have h0 : (s.outgoing j).active = true ∧ (s.outgoing j).sentMs ≠ 0 := by
      simpa using h1
    have he : now + k - ((s.stamped f).outgoing j).sentMs = now - (s.outgoing j).sentMs :=
      (h j).elapsed h0.2 now
    dsimp only
    rw [he]
    refine rel_ite (fun h2 => ?_) fun _ => hskip _
    refine rel_ite (fun _ => ⟨f, rfl, h⟩) fun h3 => ?_
    have hreads : Reads k now :=
      hr.resolve_right fun hno => hno j ⟨⟨h0.1, h0.2, h2⟩, Nat.not_le.1 h3⟩
    have hupd := s.stamped_update f j ((s.outgoing j).requeued now) (now + k)
    have hih := serviceSlots_alike cfg js
      { s with outgoing := Function.update s.outgoing j ((s.outgoing j).requeued now)
               retransmissions := s.retransmissions + 1 } n (Function.update f j (now + k))
      (h.update j (.reading hreads)) (.inl hreads)
    have hs : (Sender.stamped { s with
        outgoing := Function.update s.outgoing j ((s.outgoing j).requeued now)
        retransmissions := s.retransmissions + 1 } (Function.update f j (now + k))) =
        { s.stamped f with
          outgoing := Function.update (s.stamped f).outgoing j
            { (s.stamped f).outgoing j with
              fragSent := 0, sentMs := now + k, attempts := (s.outgoing j).attempts + 1 }
          retransmissions := s.retransmissions + 1 } :=
      congrArg (fun o => { s with outgoing := o, retransmissions := s.retransmissions + 1 })
        hupd.symm
    rw [hs] at hih
    exact hih

/-- Without a message to send again the slots are as they were. -/
theorem serviceSlots_still (cfg : Cfg) (now : UInt32) (s : Sender)
    (h : ∀ i, ¬ (s.outgoing i).Requeues cfg now) : ∀ (js : List (Fin ncOutgoingSlots)) (n : Int),
    (serviceSlots cfg now js s n).1 = s
  | [], _ => rfl
  | j :: js, n => by
    unfold serviceSlots
    dsimp only
    split
    · exact serviceSlots_still cfg now s h js n
    rename_i h1
    have h0 : (s.outgoing j).active = true ∧ (s.outgoing j).sentMs ≠ 0 := by
      simpa using h1
    split
    · rename_i h2
      split
      · rfl
      · rename_i h3
        exact absurd ⟨⟨h0.1, h0.2, h2⟩, Nat.not_le.1 h3⟩ (h j)
    · exact serviceSlots_still cfg now s h js _

/-- `netchan_service` at `now` finds a message to send again on the channel. -/
def Chan.Requeues (ch : Chan) (cfg : Cfg) (now : UInt32) : Prop :=
  ch.role = .sender ∧ ch.type = .reliable ∧ ∃ i, (ch.snd.outgoing i).Requeues cfg now

instance (ch : Chan) (cfg : Cfg) (now : UInt32) : Decidable (ch.Requeues cfg now) :=
  inferInstanceAs (Decidable (_ ∧ _))

/-- The events, the channels and the wait of the retransmit loop look alike. -/
def ChansAlike (k : UInt32) (r r' : (Ring Event ncEventQueue × Table) × Int) : Prop :=
  r'.1.1 = r.1.1 ∧ r'.2 = r.2 ∧ TableAlike k r.1.2 r'.1.2

theorem serviceChans_alike (cfg : Cfg) {now : UInt32} : ∀ (is : List ChanId)
    (ev : Ring Event ncEventQueue) (t t' : Table) (n : Int), TableAlike k t t' →
    (Reads k now ∨ ∀ id ch, t id = some ch → ¬ ch.Requeues cfg now) →
    ChansAlike k (serviceChans cfg now is (ev, t) n) (serviceChans cfg (now + k) is (ev, t') n)
  | [], _, _, _, _, h, _ => ⟨rfl, rfl, h⟩
  | i :: is, ev, t, t', n, h, hr => by
    have hi := h i
    unfold serviceChans
    generalize ht : t i = o at hi
    generalize ht' : t' i = o' at hi
    cases hi with
    | none => exact serviceChans_alike cfg is ev t t' n h hr
    | @some ch ch' hc =>
      obtain ⟨f, rfl, hf⟩ := hc
      dsimp only
      refine rel_ite (fun _ => serviceChans_alike cfg is ev t t' n h hr) fun h1 => ?_
      have hrole : ch.role = .sender ∧ ch.type = .reliable := by
        rw [not_or, not_not, not_not] at h1
        exact h1
      have hslots : Reads k now ∨ ∀ i, ¬ (ch.snd.outgoing i).Requeues cfg now :=
        hr.imp_right fun hno j hj => hno i ch ht ⟨hrole.1, hrole.2, j, hj⟩
      have he := serviceSlots_alike cfg (List.finRange ncOutgoingSlots) ch.snd n f hf hslots
      have hstill := serviceSlots_still cfg now ch.snd
      have hstill := fun hno => hstill hno (List.finRange ncOutgoingSlots) n
      obtain ⟨⟨s, dead, m⟩, hres⟩ :
        ∃ r, serviceSlots cfg now (List.finRange ncOutgoingSlots) ch.snd n = r := ⟨_, rfl⟩
      rw [hres] at he hstill
      obtain ⟨f', he, hf'⟩ := he
      have he' : serviceSlots cfg (now + k) (List.finRange ncOutgoingSlots) (ch.stamped f).snd n =
        (s.stamped f', dead, m) := he
      rw [hres, he']
      -- the rest of the loop, on a table with the new channel in it
      have hnext : ∀ ev st, ChansAlike k
          (serviceChans cfg now is (ev, t.set i { ch with snd := s, state := st }) m)
          (serviceChans cfg (now + k) is
            (ev, t'.set i { ch with snd := s.stamped f', state := st }) m) := by
        intro ev st
        refine serviceChans_alike cfg is ev _ _ m (h.set i ⟨f', rfl, hf'⟩) ?_
        refine hr.imp_right fun hno id c2 hid hq => ?_
        by_cases hj : id = i
        · subst hj
          rw [Table.set_same, Option.some_inj] at hid
          subst hid
          have hs : s = ch.snd := hstill fun j hj => hno id ch ht ⟨hrole.1, hrole.2, j, hj⟩
          subst hs
          exact hno id ch ht hq
        · rw [Table.set_of_ne _ hj] at hid
          exact hno id c2 hid hq
      cases dead with
      | true => exact hnext (ev.offer (.chanClose i)) .closed
      | false => exact hnext ev ch.state

/-! ## Packets -/

theorem chanPending_alike {ch ch' : Chan} (h : ChanAlike k ch ch') :
    chanPending ch' = chanPending ch := by
  obtain ⟨f, rfl, -⟩ := h
  rfl

theorem hasData_alike {c d : Conn} (hb : d.ctrlBuf = c.ctrlBuf)
    (h : TableAlike k c.channels d.channels) : hasData d = hasData c := by
  unfold hasData
  rw [hb]
  congr 2
  funext i
  have hi := h i
  generalize c.channels i = o at hi
  generalize d.channels i = o' at hi
  cases hi with
  | none => rfl
  | some hc => exact chanPending_alike hc

/-- What a channel puts into the packet, and the channel after it, look alike. -/
def PutsAlike (k : UInt32) (r r' : Chan × List UInt8) : Prop := r'.2 = r.2 ∧ ChanAlike k r.1 r'.1

theorem flushAck_alike (mtu : Nat) {ch ch' : Chan} (h : ChanAlike k ch ch') (out : List UInt8) :
    PutsAlike k (flushAck mtu ch out) (flushAck mtu ch' out) := by
  obtain ⟨f, rfl, h⟩ := h
  unfold flushAck
  exact rel_ite (fun _ => ⟨rfl, f, rfl, h⟩) fun _ => ⟨rfl, f, rfl, h⟩

theorem flushWindow_alike (mtu : Nat) {ch ch' : Chan} (h : ChanAlike k ch ch') (out : List UInt8) :
    PutsAlike k (flushWindow mtu ch out) (flushWindow mtu ch' out) := by
  obtain ⟨f, rfl, h⟩ := h
  unfold flushWindow
  exact rel_ite (fun _ => ⟨rfl, f, rfl, h⟩) fun _ => ⟨rfl, f, rfl, h⟩

/-- The channels and the packet so far look alike. -/
def FlushAlike (k : UInt32) (r r' : Table × List UInt8) : Prop := r'.2 = r.2 ∧ TableAlike k r.1 r'.1

theorem flushAcks_alike (mtu : Nat) : ∀ (is : List ChanId) (t t' : Table) (out : List UInt8),
    TableAlike k t t' → FlushAlike k (flushAcks mtu is t out) (flushAcks mtu is t' out)
  | [], _, _, _, h => ⟨rfl, h⟩
  | i :: is, t, t', out, h => by
    have hi := h i
    unfold flushAcks
    refine rel_ite (fun _ => ?_) fun _ => ⟨rfl, h⟩
    generalize t i = o at hi
    generalize t' i = o' at hi
    cases hi with
    | none => exact flushAcks_alike mtu is t t' out h
    | @some ch ch' hc =>
      have h1 := flushAck_alike mtu hc out
      dsimp only
      generalize flushAck mtu ch out = r at h1
      generalize flushAck mtu ch' out = r' at h1
      obtain ⟨ch1, _⟩ := r
      obtain ⟨ch1', out1⟩ := r'
      obtain ⟨rfl, h1⟩ := h1
      have h2 := flushWindow_alike mtu h1 out1
      dsimp only
      generalize flushWindow mtu ch1 out1 = r at h2
      generalize flushWindow mtu ch1' out1 = r' at h2
      obtain ⟨ch2, _⟩ := r
      obtain ⟨ch2', out2⟩ := r'
      obtain ⟨rfl, h2⟩ := h2
      exact flushAcks_alike mtu is _ _ out2 (h.set i h2)

/-- The pool, the channels and the packet so far look alike. -/
def DataAlike (k : UInt32) (r r' : (Pool × Table) × List UInt8) : Prop :=
  r'.2 = r.2 ∧ r'.1.1 = r.1.1 ∧ TableAlike k r.1.2 r'.1.2

theorem flushData_alike {now : UInt32} (hr : Reads k now) (fp mtu : Nat) : ∀ (is : List ChanId)
    (p : Pool) (t t' : Table) (out : List UInt8), TableAlike k t t' →
    DataAlike k (flushData now fp mtu is (p, t) out) (flushData (now + k) fp mtu is (p, t') out)
  | [], _, _, _, _, h => ⟨rfl, rfl, h⟩
  | i :: is, p, t, t', out, h => by
    have hi := h i
    unfold flushData
    refine rel_ite (fun _ => ?_) fun _ => ⟨rfl, rfl, h⟩
    generalize t i = o at hi
    generalize t' i = o' at hi
    cases hi with
    | none => exact flushData_alike hr fp mtu is p t t' out h
    | @some ch ch' hc =>
      have hslot : chanSendSlot ch' = chanSendSlot ch := by
        obtain ⟨f, rfl, -⟩ := hc
        rfl
      dsimp only
      rw [hslot]
      cases chanSendSlot ch with
      | none => exact flushData_alike hr fp mtu is p t t' out h
      | some j =>
        have hsent := chanSent_alike hr p hc j
        dsimp only
        refine rel_ite (fun _ => ⟨rfl, rfl, h⟩) fun _ => ?_
        have hlen : fragLen fp (ch'.snd.outgoing j) = fragLen fp (ch.snd.outgoing j) ∧
            dataFrame p fp ch'.id (ch'.snd.outgoing j) =
              dataFrame p fp ch.id (ch.snd.outgoing j) := by
          obtain ⟨f, rfl, -⟩ := hc
          exact ⟨rfl, rfl⟩
        rw [hlen.1, hlen.2]
        refine rel_ite (fun _ => ⟨rfl, rfl, h⟩) fun _ => ?_
        generalize chanSent now p ch j = r at hsent
        generalize chanSent (now + k) p ch' j = r' at hsent
        obtain ⟨p1, ch1⟩ := r
        obtain ⟨_, ch1'⟩ := r'
        obtain ⟨rfl, hsent⟩ := hsent
        exact flushData_alike hr fp mtu is _ _ _ _ (h.set i hsent)

end

/-! ## The times of a connection -/

/-- The fields of `struct netchan_conn` that hold a time; the channels hold those of their
messages. -/
structure Times where
  lastRecv : UInt32 := 0
  lastSend : UInt32 := 0
  connectSent : UInt32 := 0
  pingSent : UInt32 := 0
  channels : Table := fun _ => none

/-- The connection at other times. -/
def Conn.retime (c : Conn) (t : Times) : Conn :=
  { c with lastRecvMs := t.lastRecv, lastSendMs := t.lastSend, connectSentMs := t.connectSent
           pingSentMs := t.pingSent, channels := t.channels }

/-- The times of a connection. -/
def Conn.times (c : Conn) : Times :=
  ⟨c.lastRecvMs, c.lastSendMs, c.connectSentMs, c.pingSentMs, c.channels⟩

/-- The connection without its times. -/
def Conn.untimed (c : Conn) : Conn :=
  c.retime { channels := fun id => (c.channels id).map (·.stamped fun _ => 0) }

/-- The times `t` of a connection in the run whose clock is ahead by `k`, against its times `u` in
the other run; `dialing` says whether it is a client that is connecting. -/
structure Shifted (k : UInt32) (dialing : Bool) (u t : Times) : Prop where
  recv : Stamp k u.lastRecv t.lastRecv
  send : Stamp k u.lastSend t.lastSend
  ping : Stamp k u.pingSent t.pingSent
  connect : dialing = true → t.connectSent = u.connectSent + k
  channels : TableAlike k u.channels t.channels

/-- The connection `d` of the one run looks like `c` of the other. -/
def Alike (k : UInt32) (c d : Conn) : Prop :=
  ∃ t, d = c.retime t ∧ Shifted k (isInit c) c.times t

/-- The results of a call in the two runs look alike. -/
def Follows {α : Type} (k : UInt32) (r r' : α × Conn) : Prop := r'.1 = r.1 ∧ Alike k r.2 r'.2

/-- The connections and what was made of them in the two runs look alike. -/
def Sends {α : Type} (k : UInt32) (r r' : Conn × α) : Prop := r'.2 = r.2 ∧ Alike k r.1 r'.1

theorem Sends.eq {α : Type} {k : UInt32} {r r' : Conn × α} (h : Sends k r r') :
    ∃ t, r' = (r.1.retime t, r.2) ∧ Shifted k (isInit r.1) r.1.times t := by
  obtain ⟨h1, t, h2, h⟩ := h
  exact ⟨t, Prod.ext h2 h1, h⟩

section
variable {k : UInt32} {c : Conn} {u t : Times} {dialing : Bool}

theorem Shifted.off (h : Shifted k dialing u t) : Shifted k false u t :=
  { h with connect := fun hd => Bool.noConfusion hd }

theorem Shifted.setChan (h : Shifted k (isInit c) c.times t) (id : ChanId) {ch ch' : Chan}
    (hc : ChanAlike k ch ch') : Alike k (c.setChan id ch) ((c.retime t).setChan id ch') :=
  ⟨{ t with channels := Table.set t.channels id ch' }, rfl,
    { h with channels := h.channels.set id hc }⟩

theorem Shifted.chan (h : Shifted k dialing c.times t) (id : ChanId) :
    c.channels id = none ∧ (c.retime t).channels id = none ∨
      ∃ ch f, c.channels id = some ch ∧ (c.retime t).channels id = some (ch.stamped f) ∧
        Stamps k ch.snd f := by
  have hi : Option.Rel (ChanAlike k) (c.channels id) (t.channels id) := h.channels id
  show _ ∧ t.channels id = none ∨ ∃ ch f, _ ∧ t.channels id = some _ ∧ _
  generalize c.channels id = o at hi
  generalize t.channels id = o' at hi
  cases hi with
  | none => exact .inl ⟨rfl, rfl⟩
  | @some ch ch' hc =>
    obtain ⟨f, rfl, hf⟩ := hc
    exact .inr ⟨ch, f, rfl, rfl, hf⟩

/-! ## Calls that look at no time -/

theorem netchanChanOpen_follows (h : Shifted k (isInit c) c.times t) (type : ChanType) (dir : Dir)
    (contentType : List UInt8) :
    Follows k (netchanChanOpen c type dir contentType)
      (netchanChanOpen (c.retime t) type dir contentType) := by
  rw [netchanChanOpen_eq, netchanChanOpen_eq]
  have hsome : ((c.retime t).channels (c.retime t).nextChanId).isSome =
      (c.channels c.nextChanId).isSome := h.channels.isSome c.nextChanId
  rw [hsome]
  refine rel_ite (fun _ => ⟨rfl, t, rfl, h⟩) fun _ => ?_
  refine rel_ite (fun _ => ⟨rfl, t, rfl, h⟩) fun _ => ⟨rfl, ?_⟩
  exact ⟨{ t with channels := Table.set t.channels c.nextChanId _ }, rfl,
    { h with channels := h.channels.set _ (.fresh fun _ => rfl) }⟩

theorem netchanChanClose_alike (h : Shifted k (isInit c) c.times t) (id : ChanId) :
    Alike k (netchanChanClose c id) (netchanChanClose (c.retime t) id) := by
  unfold netchanChanClose
  rcases h.chan id with ⟨h1, h2⟩ | ⟨ch, f, h1, h2, hf⟩
  · rw [h1, h2]
    exact ⟨t, rfl, h⟩
  · rw [h1, h2]
    refine rel_ite (fun _ => ⟨t, rfl, h⟩) fun _ => ?_
    exact Shifted.setChan (c := ctrlChannelClose c id 0) h id ⟨f, rfl, hf⟩

/-- A slot that is written carries no time yet. -/
theorem writtenChan_alike (c : Conn) (t : Times) (b : BufIdx) (data : List UInt8) {ch ch' : Chan}
    (h : ChanAlike k ch ch') :
    ChanAlike k (writtenChan c ch b data) (writtenChan (c.retime t) ch' b data) := by
  obtain ⟨f, rfl, h⟩ := h
  refine ⟨Function.update f ch.snd.outTail 0, ?_, h.update ch.snd.outTail (.unset k)⟩
  have := ch.snd.stamped_update f ch.snd.outTail
    ((writtenChan c ch b data).snd.outgoing ch.snd.outTail) 0
  simp only [writtenChan, Function.update_self] at this
  exact congrArg (fun o => { ch with snd := { (writtenChan c ch b data).snd with outgoing := o } })
    this

theorem skippedChan_alike {ch ch' : Chan} (h : ChanAlike k ch ch') :
    ChanAlike k (skippedChan ch) (skippedChan ch') := by
  obtain ⟨f, rfl, h⟩ := h
  refine ⟨Function.update f ch.snd.outTail 0, ?_, h.update ch.snd.outTail (.unset k)⟩
  exact congrArg (fun o => { ch with snd := { ch.snd with
    outgoing := o, sendSeq := ch.snd.sendSeq + 1 } }) (ch.snd.stamped_update f ch.snd.outTail {} 0)

theorem netchanChanWrite_follows (h : Shifted k (isInit c) c.times t) (id : ChanId)
    (data : List UInt8) :
    Follows k (netchanChanWrite c id data) (netchanChanWrite (c.retime t) id data) := by
  unfold netchanChanWrite
  rcases h.chan id with ⟨h1, h2⟩ | ⟨ch, f, h1, h2, hf⟩
  · rw [h1, h2]
    exact ⟨rfl, t, rfl, h⟩
  rw [h1, h2]
  refine rel_ite (fun _ => ⟨rfl, t, rfl, h⟩) fun _ => ?_
  refine rel_ite (fun _ => ⟨rfl, t, rfl, h⟩) fun _ => ?_
  refine rel_ite (fun _ => ⟨rfl, t, rfl, h⟩) fun _ => ?_
  refine rel_ite (fun _ => ⟨rfl, t, rfl, h⟩) fun _ => ?_
  refine rel_ite (fun _ => ⟨rfl, t, rfl, h⟩) fun _ => ?_
  refine rel_ite (fun _ => ⟨rfl, t, rfl, h⟩) fun _ => ?_
  have hpool : (c.retime t).pool = c.pool := rfl
  rw [hpool]
  generalize poolGet c.pool = g
  obtain ⟨b | b, p⟩ := g
  · exact ⟨rfl, t, rfl, h⟩
  dsimp only
  exact rel_ite (fun _ => ⟨rfl, { t with channels := Table.set t.channels id _ }, rfl,
      { h with channels := h.channels.set id (skippedChan_alike ⟨f, rfl, hf⟩) }⟩)
    fun _ => ⟨rfl, { t with channels := Table.set t.channels id _ }, rfl,
      { h with channels := h.channels.set id (writtenChan_alike c t b data ⟨f, rfl, hf⟩) }⟩

theorem netchanChanRead_follows (h : Shifted k (isInit c) c.times t) (id : ChanId) (buflen : Nat) :
    Follows k (netchanChanRead c id buflen) (netchanChanRead (c.retime t) id buflen) := by
  unfold netchanChanRead
  rcases h.chan id with ⟨h1, h2⟩ | ⟨ch, f, h1, h2, hf⟩
  · rw [h1, h2]
    exact ⟨rfl, t, rfl, h⟩
  rw [h1, h2]
  refine rel_ite (fun _ => ⟨rfl, t, rfl, h⟩) fun _ => ?_
  refine rel_ite (fun _ => ⟨rfl, t, rfl, h⟩) fun _ => ⟨rfl, ?_⟩
  exact ⟨{ t with channels := Table.set t.channels id _ }, rfl,
    { h with channels := h.channels.set id ⟨f, rfl, hf⟩ }⟩

theorem netchanPoll_follows (h : Shifted k (isInit c) c.times t) :
    Follows k (netchanPoll c) (netchanPoll (c.retime t)) := by
  unfold netchanPoll
  exact rel_ite (fun _ => ⟨rfl, t, rfl, h⟩) fun _ => ⟨rfl, t, rfl, h⟩

/-! ## Frames -/

/-- The same surroundings on the clock that is ahead by `k`. The word `nc_random_id` falls back on
is the clock times a constant, mixed with the stack address. -/
def Env.shift (k : UInt32) (env : Env) : Env :=
  { env with
    now := env.now + k
    mix := env.mix ^^^ env.now * 2654435761 ^^^ (env.now + k) * 2654435761 }

/-- `nc_random_id` draws the same id on both clocks. -/
def SameId (k : UInt32) (env : Env) : Prop := ncRandomId (env.shift k) = ncRandomId env

instance (k : UInt32) (env : Env) : Decidable (SameId k env) := inferInstanceAs (Decidable (_ = _))

theorem channelOpened_alike (h : Shifted k (isInit c) c.times t) (id : ChanId) (type : ChanType)
    (dir : Dir) (ct : List UInt8) :
    Alike k (channelOpened c id type dir ct) (channelOpened (c.retime t) id type dir ct) := by
  rw [channelOpened_eq, channelOpened_eq]
  have hsome : ((c.retime t).channels id).isSome = (c.channels id).isSome := h.channels.isSome id
  rw [hsome]
  refine rel_ite (fun _ => ⟨t, rfl, h⟩) fun _ => ?_
  exact ⟨{ t with channels := Table.set t.channels id _ }, rfl,
    { h with channels := h.channels.set id (.fresh fun _ => rfl) }⟩

theorem channelClosed_alike (h : Shifted k (isInit c) c.times t) (id : ChanId) :
    Alike k (channelClosed c id) (channelClosed (c.retime t) id) := by
  unfold channelClosed
  rcases h.chan id with ⟨h1, h2⟩ | ⟨ch, f, h1, h2, hf⟩
  · rw [h1, h2]
    exact ⟨t, rfl, h⟩
  · rw [h1, h2]
    exact ⟨{ t with channels := Table.set t.channels id _ }, rfl,
      { h with channels := h.channels.set id ⟨f, rfl, hf⟩ }⟩

theorem dataReceived_alike (h : Shifted k (isInit c) c.times t) (id : ChanId) (seq : UInt16)
    (fragIdx fragTotal : Nat) (payload : List UInt8) :
    Alike k (dataReceived c id seq fragIdx fragTotal payload)
      (dataReceived (c.retime t) id seq fragIdx fragTotal payload) := by
  unfold dataReceived
  rcases h.chan id with ⟨h1, h2⟩ | ⟨ch, f, h1, h2, hf⟩
  · rw [h1, h2]
    exact ⟨t, rfl, h⟩
  rw [h1, h2]
  refine rel_ite (fun _ => ⟨t, rfl, h⟩) fun _ => ?_
  have hrx : ∀ x : Rx, Alike k (c.withRx id ch x) ((c.retime t).withRx id (ch.stamped f) x) :=
    fun x => ⟨{ t with channels := Table.set t.channels id _ }, rfl,
      { h with channels := h.channels.set id ⟨f, rfl, hf⟩ }⟩
  exact rel_ite (fun _ => hrx _) fun _ => hrx _

theorem ackReceived_alike (h : Shifted k (isInit c) c.times t) (id : ChanId) (acked : UInt16) :
    Alike k (ackReceived c id acked) (ackReceived (c.retime t) id acked) := by
  unfold ackReceived
  rcases h.chan id with ⟨h1, h2⟩ | ⟨ch, f, h1, h2, hf⟩
  · rw [h1, h2]
    exact ⟨t, rfl, h⟩
  rw [h1, h2]
  refine rel_ite (fun _ => ⟨t, rfl, h⟩) fun _ => ?_
  have hs : (List.finRange ncOutgoingSlots).foldl (ackSlot acked)
      ((c.retime t).pool, (ch.stamped f).snd) = _ := ackSlots_stamped f acked _ c.pool ch.snd
  have hf' := ackSlots_stamps hf acked (List.finRange ncOutgoingSlots) c.pool
  rw [hs]
  generalize (List.finRange ncOutgoingSlots).foldl (ackSlot acked) (c.pool, ch.snd) = r at hf'
  obtain ⟨p, s⟩ := r
  dsimp only
  rw [outAdvance_stamped]
  refine ⟨{ t with channels := Table.set t.channels id _ }, rfl,
    { h with channels := h.channels.set id ⟨f, rfl, fun i => ?_⟩ }⟩
  rw [outAdvance_outgoing]
  exact hf' i

theorem windowUpdated_alike (h : Shifted k (isInit c) c.times t) (id : ChanId) (window : UInt32) :
    Alike k (windowUpdated c id window) (windowUpdated (c.retime t) id window) := by
  unfold windowUpdated
  rcases h.chan id with ⟨h1, h2⟩ | ⟨ch, f, h1, h2, hf⟩
  · rw [h1, h2]
    exact ⟨t, rfl, h⟩
  rw [h1, h2]
  refine rel_ite (fun _ => ?_) fun _ => ⟨t, rfl, h⟩
  exact ⟨{ t with channels := Table.set t.channels id _ }, rfl,
    { h with channels := h.channels.set id ⟨f, rfl, hf⟩ }⟩

theorem pongReceived_alike (h : Shifted k (isInit c) c.times t) (env : Env) (opaq : UInt32) :
    Alike k (pongReceived env c opaq) (pongReceived (env.shift k) (c.retime t) opaq) := by
  unfold pongReceived
  refine rel_ite_iff (and_congr_right fun _ => h.ping.1.not) (fun h1 => ?_) fun _ => ⟨t, rfl, h⟩
  have he : (env.shift k).now - (c.retime t).pingSentMs = env.now - c.pingSentMs :=
    h.ping.elapsed h1.2 env.now
  dsimp only
  rw [he]
  exact ⟨{ t with pingSent := 0 }, rfl, { h with ping := .unset k }⟩

theorem disconnectReceived_alike (h : Shifted k (isInit c) c.times t) :
    Alike k (disconnectReceived c) (disconnectReceived (c.retime t)) := by
  have hs : (c.retime t).state = c.state := rfl
  unfold disconnectReceived
  rw [hs]
  cases c.state with
  | connecting => exact ⟨t, rfl, h.off⟩
  | connected => exact ⟨t, rfl, h.off⟩
  | closing => exact ⟨t, rfl, h.off⟩
  | new => exact ⟨t, rfl, h⟩
  | closed => exact ⟨t, rfl, h⟩

theorem initReceived_alike (h : Shifted k (isInit c) c.times t) (hs : c.server = true) (env : Env)
    (hid : c.state = .new → SameId k env) (id : UInt32) :
    Alike k (initReceived env c id) (initReceived (env.shift k) (c.retime t) id) := by
  unfold initReceived
  refine rel_ite (fun h1 => ?_) fun _ => ⟨t, rfl, h⟩
  rw [hid h1]
  refine ⟨t, rfl, ?_⟩
  have : isInit { c with remoteId := id, localId := ncRandomId env, state := .connecting } = false := by
    simp [isInit, hs]
  rw [this]
  exact h.off

/-- **One frame** in the two runs. -/
theorem applyFrame_alike (h : Shifted k (isInit c) c.times t) (env : Env) (f : Frame)
    (hid : ∀ id, f = .connectInit id → c.server = true → c.state = .new → SameId k env) :
    Option.Rel (Alike k) (applyFrame env c f) (applyFrame (env.shift k) (c.retime t) f) := by
  cases f with
  | connectInit id =>
    refine rel_ite (fun hs => .some ?_) fun _ => .none
    exact initReceived_alike h hs env (hid id rfl hs) id
  | connectAccept id v idle =>
    refine rel_ite (fun _ => .none) fun _ => .some ⟨t, rfl, h.off⟩
  | connectRedirect id addr => exact .some ⟨t, rfl, h⟩
  | disconnect reason => exact .some (disconnectReceived_alike h)
  | ping opaq => exact .some ⟨t, rfl, h⟩
  | pong opaq => exact .some (pongReceived_alike h env opaq)
  | channelOpen id type dir ct => exact .some (channelOpened_alike h id type dir ct)
  | channelClose id code => exact .some (channelClosed_alike h id)
  | data id seq fragIdx fragTotal payload =>
    exact .some (dataReceived_alike h id seq fragIdx fragTotal payload)
  | ack id seq => exact .some (ackReceived_alike h id seq)
  | windowUpdate id window => exact .some (windowUpdated_alike h id window)

/-- The frame is a CONNECT_INIT. -/
def Frame.isInit : Frame → Bool
  | .connectInit _ => true
  | _ => false

theorem parseLoop_follows (env : Env) : ∀ (fuel : Nat) (c : Conn) (t : Times) (p : List UInt8),
    Shifted k (Netchan.isInit c) c.times t →
    (c.server = true → c.state = .new → (parsed env fuel c p).any Frame.isInit = true →
      SameId k env) →
    Follows k (parseLoop env fuel c p) (parseLoop (env.shift k) fuel (c.retime t) p)
  | 0, _, t, _, h, _ => ⟨rfl, t, rfl, h⟩
  | _ + 1, _, t, [], h, _ => ⟨rfl, t, rfl, h⟩
  | fuel + 1, c, t, b :: p, h, hid => by
    unfold parseLoop
    unfold parsed at hid
    by_cases hb : b = 0
    · rw [if_pos hb, if_pos hb]
      rw [if_pos hb] at hid
      exact parseLoop_follows env fuel c t p h hid
    rw [if_neg hb, if_neg hb, processFrame_eq, processFrame_eq]
    rw [if_neg hb] at hid
    cases hd : decodeFrame (b :: p) with
    | none => exact ⟨rfl, t, rfl, h⟩
    | some q =>
      obtain ⟨f, n⟩ := q
      rw [hd] at hid
      dsimp only [handle] at hid ⊢
      have hf := applyFrame_alike h env f fun id he hs hn => hid hs hn (by
        subst he
        simp [applyFrame, hs, Frame.isInit])
      have hnew := fun hs : c.state ≠ .new => (stepFrame_localId env f hs).1
      have hserver := (stepFrame_fixed env c f).1
      unfold stepFrame at hnew hserver
      generalize applyFrame env c f = r at hf hid hnew hserver
      generalize applyFrame (env.shift k) (c.retime t) f = r' at hf
      cases hf with
      | none => exact ⟨rfl, t, rfl, h⟩
      | @some c1 d1 hc =>
        obtain ⟨t1, rfl, h1⟩ := hc
        refine parseLoop_follows env fuel c1 t1 _ h1 fun hs hn hany => ?_
        refine hid (hserver.symm.trans hs) ?_ ?_
        · by_contra hne
          exact hnew hne hn
        · rw [List.any_cons, hany, Bool.or_true]

/-! ## Datagrams -/

theorem validateMigration_alike (h : Shifted k dialing c.times t) (frames : List UInt8) :
    validateMigration (c.retime t) frames = validateMigration c frames := by
  unfold validateMigration
  cases frames with
  | nil => rfl
  | cons b p =>
    have hsome : ((c.retime t).channels (chanIdAt (b :: p) 1)).isSome =
        (c.channels (chanIdAt (b :: p) 1)).isSome := h.channels.isSome _
    dsimp only
    rw [hsome]

theorem updatePeer_retime (h : Shifted k dialing c.times t) (frames : List UInt8)
    (source : Option Addr) :
    updatePeer (c.retime t) frames source = (updatePeer c frames source).retime t := by
  unfold updatePeer
  cases source with
  | none => rfl
  | some a =>
    dsimp only
    rw [validateMigration_alike h]
    have hmove : (if a ≠ [] ∧ (c.retime t).peerAddr ≠ [] ∧ (c.retime t).state = .connected ∧
        a ≠ (c.retime t).peerAddr ∧ validateMigration c frames then
          { c.retime t with peerAddr := a } else c.retime t) =
        (if a ≠ [] ∧ c.peerAddr ≠ [] ∧ c.state = .connected ∧ a ≠ c.peerAddr ∧
          validateMigration c frames then { c with peerAddr := a } else c).retime t :=
      rel_ite (R := fun x y : Conn => y = x.retime t) (fun _ => rfl) fun _ => rfl
    rw [hmove]
    exact rel_ite (R := fun x y : Conn => y = x.retime t) (fun _ => rfl) fun _ => rfl

theorem fedConn_alike (h : Shifted k (isInit c) c.times t) {env : Env} (hr : Reads k env.now)
    (pkt : List UInt8) (source : Option Addr) :
    Alike k (fedConn env c pkt source) (fedConn (env.shift k) (c.retime t) pkt source) := by
  unfold fedConn
  rw [updatePeer_retime h]
  obtain ⟨a, he⟩ := updatePeer_eq c (pkt.drop (hdrSize (byte pkt 0))) source
  rw [he]
  exact ⟨{ t with lastRecv := env.now + k }, rfl, { h with recv := .reading hr }⟩

/-- `netchan_feed` meets the clock alike in both runs: the time of an accepted datagram is 0 in both
or in neither, and a server that it introduces to its client draws the same id. -/
def FeedOk (k : UInt32) (c : Conn) (env : Env) (pkt : List UInt8) (source : Option Addr) : Prop :=
  headerOk c pkt = true → Reads k env.now ∧
    (c.server = true → c.state = .new →
      (parsed env (pkt.drop (hdrSize (byte pkt 0))).length (fedConn env c pkt source)
        (pkt.drop (hdrSize (byte pkt 0)))).any Frame.isInit = true → SameId k env)

instance (k : UInt32) (c : Conn) (env : Env) (pkt : List UInt8) (source : Option Addr) :
    Decidable (FeedOk k c env pkt source) :=
  inferInstanceAs (Decidable (_ → _ ∧ (_ → _ → _ → _)))

theorem netchanFeed_follows (h : Shifted k (isInit c) c.times t) {env : Env} {pkt : List UInt8}
    {source : Option Addr} (hok : FeedOk k c env pkt source) :
    Follows k (netchanFeed env c pkt source) (netchanFeed (env.shift k) (c.retime t) pkt source) := by
  unfold netchanFeed
  refine rel_ite (fun hh => ?_) fun _ => ⟨rfl, t, rfl, h⟩
  obtain ⟨hr, hid⟩ := hok hh
  obtain ⟨t', he, h'⟩ := fedConn_alike h hr pkt source
  rw [he]
  refine parseLoop_follows env _ _ t' _ h' fun hs hn => hid ?_ ?_
  · obtain ⟨a, ha⟩ := updatePeer_eq c (pkt.drop (hdrSize (byte pkt 0))) source
    rw [fedConn, ha] at hs
    exact hs
  · obtain ⟨a, ha⟩ := updatePeer_eq c (pkt.drop (hdrSize (byte pkt 0))) source
    rw [fedConn, ha] at hn
    exact hn

/-- `netchan_send_next` sends a packet. -/
def SendsPacket (c : Conn) (buflen : Nat) : Prop := hasData c = true ∧ sendHdrSize c ≤ buflen

instance (c : Conn) (buflen : Nat) : Decidable (SendsPacket c buflen) :=
  inferInstanceAs (Decidable (_ ∧ _))

theorem flushed_sends (h : Shifted k (isInit c) c.times t) {env : Env} (hr : Reads k env.now)
    (mtu : Nat) (out : List UInt8) :
    Sends k
      (let (tb, out) := flushAcks mtu allIds c.channels out
        let ((p, tb), out) := flushData env.now (maxFragPayload c) mtu allIds (c.pool, tb) out
        ({ c with pool := p, channels := tb, lastSendMs := env.now, pktsSent := c.pktsSent + 1 },
          some (out, c.peerAddr)))
      (let (tb, out) := flushAcks mtu allIds (c.retime t).channels out
        let ((p, tb), out) := flushData (env.now + k) (maxFragPayload c) mtu allIds (c.pool, tb) out
        ({ c.retime t with
            pool := p, channels := tb, lastSendMs := env.now + k, pktsSent := c.pktsSent + 1 },
          some (out, c.peerAddr))) := by
  have hacks : FlushAlike k (flushAcks mtu allIds c.channels out)
      (flushAcks mtu allIds (c.retime t).channels out) := flushAcks_alike mtu allIds _ _ out h.channels
  generalize flushAcks mtu allIds c.channels out = r at hacks
  generalize flushAcks mtu allIds (c.retime t).channels out = r' at hacks
  obtain ⟨tb, _⟩ := r
  obtain ⟨tb', out1⟩ := r'
  obtain ⟨rfl, hacks⟩ := hacks
  dsimp only
  have hdata := flushData_alike hr (maxFragPayload c) mtu allIds c.pool tb tb' out1 hacks
  generalize flushData env.now (maxFragPayload c) mtu allIds (c.pool, tb) out1 = r at hdata
  generalize flushData (env.now + k) (maxFragPayload c) mtu allIds (c.pool, tb') out1 = r' at hdata
  obtain ⟨⟨p, tb1⟩, _⟩ := r
  obtain ⟨⟨_, tb1'⟩, out2⟩ := r'
  obtain ⟨rfl, rfl, hdata⟩ := hdata
  exact ⟨rfl, { t with lastSend := env.now + k, channels := tb1' }, rfl,
    { h with send := .reading hr, channels := hdata }⟩

theorem netchanSendNext_sends (h : Shifted k (isInit c) c.times t) {env : Env} {buflen : Nat}
    (hok : SendsPacket c buflen → Reads k env.now) :
    Sends k (netchanSendNext env c buflen) (netchanSendNext (env.shift k) (c.retime t) buflen) := by
  have hdata : hasData (c.retime t) = hasData c := hasData_alike rfl h.channels
  unfold netchanSendNext
  rw [hdata]
  refine rel_ite (fun _ => ⟨rfl, t, rfl, h⟩) fun h1 => ?_
  refine rel_ite (fun _ => ⟨rfl, t, rfl, h⟩) fun h2 => ?_
  have hr := hok ⟨by simpa using h1, Nat.le_of_not_lt h2⟩
  have hhdr : sendHeader (c.retime t) = ((sendHeader c).1.retime t, (sendHeader c).2) :=
    rel_ite (R := fun a b : Conn × List UInt8 => b = (a.1.retime t, a.2)) (fun _ => rfl)
      fun _ => rfl
  have hkeep : (sendHeader c).1.times = c.times ∧ isInit (sendHeader c).1 = isInit c := by
    unfold sendHeader
    split
    · exact ⟨rfl, rfl⟩
    · exact ⟨rfl, rfl⟩
  rw [← hkeep.1, ← hkeep.2] at h
  rw [hhdr]
  generalize sendHeader c = r at h
  obtain ⟨c1, out⟩ := r
  dsimp only
  exact flushed_sends (c := (flushCtrl (sendRoom c buflen) c1 out).1) h hr _ _

/-! ## Session calls -/

theorem netchanConnect_follows (h : Shifted k (isInit c) c.times t) {env : Env}
    (hid : c.server = false → c.state = .new → SameId k env) (addr : Addr) :
    Follows k (netchanConnect env c addr) (netchanConnect (env.shift k) (c.retime t) addr) := by
  unfold netchanConnect
  refine rel_ite (fun _ => ⟨rfl, t, rfl, h⟩) fun h1 => ?_
  refine rel_ite (fun _ => ⟨rfl, t, rfl, h⟩) fun h2 => ⟨rfl, ?_⟩
  rw [hid (Bool.eq_false_of_not_eq_true h1) (not_not.1 h2)]
  exact ⟨{ t with connectSent := env.now + k }, rfl, { h with connect := fun _ => rfl }⟩

theorem netchanAccept_follows (h : Shifted k (isInit c) c.times t) :
    Follows k (netchanAccept c) (netchanAccept (c.retime t)) := by
  unfold netchanAccept
  refine rel_ite (fun _ => ⟨rfl, t, rfl, h⟩) fun _ => ?_
  exact rel_ite (fun _ => ⟨rfl, t, rfl, h⟩) fun _ => ⟨rfl, t, rfl, h.off⟩

theorem netchanDisconnect_alike (h : Shifted k (isInit c) c.times t) :
    Alike k (netchanDisconnect c) (netchanDisconnect (c.retime t)) := by
  unfold netchanDisconnect
  exact rel_ite (fun _ => ⟨t, rfl, h⟩) fun _ => ⟨t, rfl, h.off⟩

/-! ## Timers of the session -/

theorem serviceConnect_follows (h : Shifted k (isInit c) c.times t) (now : UInt32) :
    Sends k (serviceConnect c now) (serviceConnect (c.retime t) (now + k)) := by
  unfold serviceConnect
  refine rel_ite (fun h1 => ?_) fun _ => ⟨rfl, t, rfl, h⟩
  have hinit : isInit c = true := by
    rw [isInit, show c.state = .connecting from h1.1, show c.server = false from h1.2]
    rfl
  have hc : (c.retime t).connectSentMs = c.connectSentMs + k := h.connect hinit
  have he : now + k - (c.retime t).connectSentMs = now - c.connectSentMs := by
    rw [hc]
    exact add_sub_add k now c.connectSentMs
  dsimp only
  rw [he]
  refine rel_ite (fun _ => ?_) fun _ => ⟨rfl, t, rfl, h⟩
  refine rel_ite (fun _ => ⟨rfl, t, rfl, h.off⟩) fun _ => ⟨rfl, ?_⟩
  exact ⟨{ t with connectSent := now + k }, rfl, { h with connect := fun _ => rfl }⟩

theorem serviceIdle_follows (h : Shifted k (isInit c) c.times t) (now : UInt32) (n : Int) :
    Sends k (serviceIdle c now n) (serviceIdle (c.retime t) (now + k) n) := by
  unfold serviceIdle
  refine rel_ite_iff (and_congr_right fun _ => h.recv.pos_iff) (fun h1 => ?_)
    fun _ => ⟨rfl, t, rfl, h⟩
  have he : now + k - (c.retime t).lastRecvMs = now - c.lastRecvMs :=
    h.recv.elapsed (UInt32.pos_iff_ne_zero.1 h1.2) now
  dsimp only
  rw [he]
  exact rel_ite (fun _ => ⟨rfl, t, rfl, h.off⟩) fun _ => ⟨rfl, t, rfl, h⟩

/-- `netchan_service` at `now` sends a keepalive ping. -/
def PingDue (c : Conn) (now : UInt32) : Prop :=
  c.state = .connected ∧ c.lastSendMs > 0 ∧ now - c.lastSendMs ≥ ncPingIntervalMs ∧
    c.pingSentMs = 0

instance (c : Conn) (now : UInt32) : Decidable (PingDue c now) := inferInstanceAs (Decidable (_ ∧ _))

theorem servicePing_follows (h : Shifted k (isInit c) c.times t) {env : Env} {now : UInt32}
    (hok : PingDue c now → Reads k now ∧ SameId k env) (n : Int) :
    Sends k (servicePing env c now n) (servicePing (env.shift k) (c.retime t) (now + k) n) := by
  unfold servicePing
  refine rel_ite_iff (and_congr_right fun _ => h.send.pos_iff) (fun h1 => ?_)
    fun _ => ⟨rfl, t, rfl, h⟩
  have he : now + k - (c.retime t).lastSendMs = now - c.lastSendMs :=
    h.send.elapsed (UInt32.pos_iff_ne_zero.1 h1.2) now
  dsimp only
  rw [he]
  refine ⟨rfl, rel_ite_iff (and_congr_right fun _ => h.ping.1) (fun h2 => ?_) fun _ => ⟨t, rfl, h⟩⟩
  obtain ⟨hr, hid⟩ := hok ⟨h1.1, h1.2, h2⟩
  rw [hid]
  exact ⟨{ t with pingSent := now + k }, rfl, { h with ping := .reading hr }⟩

/-- `netchan_service` meets the clock alike in both runs: unless it ends the session, the time of a
ping or of a message that is sent again is 0 in both or in neither, and the ping's opaque value is
the same. -/
def ServiceOk (k : UInt32) (c : Conn) (env : Env) (now : UInt32) : Prop :=
  ¬ GivesUp c now → (PingDue c now → Reads k now ∧ SameId k env) ∧
    ((∃ id, ∃ ch ∈ c.channels id, ch.Requeues c.cfg now) → Reads k now)

instance (k : UInt32) (c : Conn) (env : Env) (now : UInt32) : Decidable (ServiceOk k c env now) :=
  inferInstanceAs (Decidable (_ → (_ → _) ∧ (_ → _)))

/-- The handshake timer leaves alone what the other timers look at. -/
theorem serviceConnect_kept {now : UInt32} {c' : Conn} {n : Int}
    (h : serviceConnect c now = (c', some n)) :
    (¬ (c'.state = .connected ∧ c'.lastRecvMs > 0 ∧
        now - c'.lastRecvMs ≥ c'.cfg.idleTimeoutMs) → ¬ GivesUp c now) ∧
      (PingDue c' now → PingDue c now) ∧ c'.cfg = c.cfg ∧ c'.channels = c.channels := by
  rcases serviceConnect_cases c now with ⟨-, he⟩ | ⟨h1, m, he⟩ | ⟨h1, m, he⟩
  · rw [he] at h
    cases h
  · rw [he] at h
    cases h
    refine ⟨fun _ => ?_, fun hp => ?_, rfl, rfl⟩
    · rintro (hg | hg)
      · exact h1.2.2.2 hg.2.2.2
      · exact ConnState.noConfusion (h1.1.symm.trans hg.1)
    · exact ConnState.noConfusion (h1.1.symm.trans hp.1)
  · rw [he] at h
    cases h
    refine ⟨fun hi => ?_, id, rfl, rfl⟩
    rintro (hg | hg)
    · exact h1 ⟨hg.1, hg.2.1, hg.2.2.1⟩
    · exact hi hg

/-- `netchan_service` after the handshake and the idle timeout. -/
theorem serviced_follows (h : Shifted k (isInit c) c.times t) {env : Env} {now : UInt32}
    (hping : PingDue c now → Reads k now ∧ SameId k env)
    (hchans : (∃ id, ∃ ch ∈ c.channels id, ch.Requeues c.cfg now) → Reads k now) (n : Int) :
    Follows k
      (let (c, nextMs) := servicePing env c now n
        let ((ev, t), nextMs) := serviceChans c.cfg now allIds (c.events, c.channels) nextMs
        (nextMs, { c with events := ev, channels := t }))
      (let (c, nextMs) := servicePing (env.shift k) (c.retime t) (now + k) n
        let ((ev, t), nextMs) := serviceChans c.cfg (now + k) allIds (c.events, c.channels) nextMs
        (nextMs, { c with events := ev, channels := t })) := by
  obtain ⟨t1, he, h1⟩ := (servicePing_follows h hping n).eq
  obtain ⟨m, hm⟩ := servicePing_cases env c now n
  have hkept : (servicePing env c now n).1.cfg = c.cfg ∧
      (servicePing env c now n).1.channels = c.channels := by
    rw [hm]
    split
    · exact ⟨rfl, rfl⟩
    · exact ⟨rfl, rfl⟩
  rw [he]
  generalize servicePing env c now n = r at h1 hkept
  obtain ⟨c1, n1⟩ := r
  dsimp only at h1 hkept ⊢
  have hok : Reads k now ∨ ∀ id ch, c1.channels id = some ch → ¬ ch.Requeues c1.cfg now := by
    rw [hkept.1, hkept.2]
    by_cases hr : Reads k now
    · exact .inl hr
    · exact .inr fun id ch hc hq => hr (hchans ⟨id, ch, hc, hq⟩)
  have hall : ChansAlike k (serviceChans c1.cfg now allIds (c1.events, c1.channels) n1)
      (serviceChans c1.cfg (now + k) allIds (c1.events, t1.channels) n1) :=
    serviceChans_alike c1.cfg allIds c1.events _ _ n1 h1.channels hok
  have hcfg : (c1.retime t1).cfg = c1.cfg := rfl
  have hev : (c1.retime t1).events = c1.events := rfl
  have hch : (c1.retime t1).channels = t1.channels := rfl
  rw [hcfg, hev, hch]
  generalize serviceChans c1.cfg now allIds (c1.events, c1.channels) n1 = r at hall
  generalize serviceChans c1.cfg (now + k) allIds (c1.events, t1.channels) n1 = r' at hall
  obtain ⟨⟨ev, tb⟩, m1⟩ := r
  obtain ⟨⟨ev', tb'⟩, m1'⟩ := r'
  obtain ⟨he1, he2, hall⟩ := hall
  dsimp only at he1 he2 hall ⊢
  subst he1 he2
  exact ⟨rfl, { t1 with channels := tb' }, rfl, { h1 with channels := hall }⟩

theorem netchanService_follows (h : Shifted k (isInit c) c.times t) {env : Env} {now : UInt32}
    (hok : ServiceOk k c env now) :
    Follows k (netchanService env c now) (netchanService (env.shift k) (c.retime t) (now + k)) := by
  obtain ⟨t1, he, h1⟩ := (serviceConnect_follows h now).eq
  unfold netchanService
  rw [he]
  generalize hr : serviceConnect c now = r at h1
  obtain ⟨c1, _ | n⟩ := r
  · exact ⟨rfl, t1, rfl, h1⟩
  obtain ⟨hgive, hping, hcfg, hch⟩ := serviceConnect_kept hr
  dsimp only at h1 ⊢
  obtain ⟨t2, he, h2⟩ := (serviceIdle_follows h1 now n).eq
  rw [he]
  rcases serviceIdle_cases c1 now n with ⟨-, hi⟩ | ⟨hno, m, hi⟩
  · rw [hi] at h2 ⊢
    exact ⟨rfl, t2, rfl, h2⟩
  · rw [hi] at h2 ⊢
    obtain ⟨hok1, hok2⟩ := hok (hgive hno)
    rw [← hcfg, ← hch] at hok2
    exact serviced_follows h2 (fun hp => hok1 (hping hp)) hok2 m

/-! ## Runs -/

/-- A call of the public API on a connection, arbitrary datagrams included. -/
inductive Action
  | config (cfg : Cfg)
  | call (k : Call)
  | sendNext (env : Env) (buflen : Nat)
  | feed (env : Env) (pkt : List UInt8) (source : Option Addr)

/-- What a call returns. -/
inductive Out
  | done
  | status (r : Except Err Unit)
  | wait (ms : Int)
  | opened (id : Option ChanId)
  | wrote (n : Except Err Nat)
  | got (m : Except Err (List UInt8))
  | event (e : Option Event)
  | packet (p : Option (List UInt8 × Addr))

/-- What a call that exchanges no datagram returns. -/
def Call.out (c : Conn) : Call → Out
  | .connect env addr => .status (netchanConnect env c addr).1
  | .accept => .status (netchanAccept c).1
  | .disconnect => .done
  | .service env now => .wait (netchanService env c now).1
  | .chanOpen type dir contentType => .opened (netchanChanOpen c type dir contentType).1
  | .chanClose _ => .done
  | .write id data => .wrote (netchanChanWrite c id data).1
  | .read id buflen => .got (netchanChanRead c id buflen).1
  | .poll => .event (netchanPoll c).1

def Action.out (c : Conn) : Action → Out
  | .config _ => .done
  | .call a => a.out c
  | .sendNext env buflen => .packet (netchanSendNext env c buflen).2
  | .feed env pkt source => .status (netchanFeed env c pkt source).1

/-- The connection after a call. -/
def Action.apply (c : Conn) : Action → Conn
  | .config cfg => netchanConfig c cfg
  | .call a => a.apply c
  | .sendNext env buflen => (netchanSendNext env c buflen).1
  | .feed env pkt source => (netchanFeed env c pkt source).2

/-- The same call on the clock that is ahead by `k`. -/
def Call.shift (k : UInt32) : Call → Call
  | .connect env addr => .connect (env.shift k) addr
  | .service env now => .service (env.shift k) (now + k)
  | a => a

def Action.shift (k : UInt32) : Action → Action
  | .config cfg => .config cfg
  | .call a => .call (a.shift k)
  | .sendNext env buflen => .sendNext (env.shift k) buflen
  | .feed env pkt source => .feed (env.shift k) pkt source

/-- What a run shows: what each call returns, and the connection after it but for its times. -/
def trace : Conn → List Action → List (Out × Conn)
  | _, [] => []
  | c, a :: as => (a.out c, (a.apply c).untimed) :: trace (a.apply c) as

/-- A call meets the clock alike in both runs. -/
def Call.ClockOk (k : UInt32) (c : Conn) : Call → Prop
  | .connect env _ => c.server = false → c.state = .new → SameId k env
  | .service env now => ServiceOk k c env now
  | _ => True

instance (k : UInt32) (c : Conn) : ∀ a : Call, Decidable (a.ClockOk k c)
  | .connect _ _ => inferInstanceAs (Decidable (_ → _ → _))
  | .service env now => inferInstanceAs (Decidable (ServiceOk k c env now))
  | .accept | .disconnect | .chanOpen .. | .chanClose _ | .write _ _ | .read _ _ | .poll =>
    .isTrue trivial

def Action.ClockOk (k : UInt32) (c : Conn) : Action → Prop
  | .config _ => True
  | .call a => a.ClockOk k c
  | .sendNext env buflen => SendsPacket c buflen → Reads k env.now
  | .feed env pkt source => FeedOk k c env pkt source

instance (k : UInt32) (c : Conn) : ∀ a : Action, Decidable (a.ClockOk k c)
  | .config _ => .isTrue trivial
  | .call a => inferInstanceAs (Decidable (a.ClockOk k c))
  | .sendNext _ _ => inferInstanceAs (Decidable (_ → _))
  | .feed env pkt source => inferInstanceAs (Decidable (FeedOk k c env pkt source))

theorem call_alike (h : Shifted k (isInit c) c.times t) {a : Call} (hok : a.ClockOk k c) :
    (a.shift k).out (c.retime t) = a.out c ∧
      Alike k (a.apply c) ((a.shift k).apply (c.retime t)) := by
  have lift : ∀ {α : Type} {r r' : α × Conn} {f : α → Out}, Follows k r r' →
      f r'.1 = f r.1 ∧ Alike k r.2 r'.2 := fun hf => ⟨congrArg _ hf.1, hf.2⟩
  cases a with
  | connect env addr => exact lift (netchanConnect_follows h hok addr)
  | accept => exact lift (netchanAccept_follows h)
  | disconnect => exact ⟨rfl, netchanDisconnect_alike h⟩
  | service env now => exact lift (netchanService_follows h hok)
  | chanOpen type dir ct => exact lift (netchanChanOpen_follows h type dir ct)
  | chanClose id => exact ⟨rfl, netchanChanClose_alike h id⟩
  | write id data => exact lift (netchanChanWrite_follows h id data)
  | read id buflen => exact lift (netchanChanRead_follows h id buflen)
  | poll => exact lift (netchanPoll_follows h)

/-- **One call** in the two runs. -/
theorem action_alike {d : Conn} (h : Alike k c d) {a : Action} (hok : a.ClockOk k c) :
    (a.shift k).out d = a.out c ∧ Alike k (a.apply c) ((a.shift k).apply d) := by
  obtain ⟨t, rfl, h⟩ := h
  cases a with
  | config cfg => exact ⟨rfl, t, rfl, h⟩
  | call a => exact call_alike h hok
  | sendNext env buflen =>
    obtain ⟨h1, h2⟩ := netchanSendNext_sends h hok
    exact ⟨congrArg Out.packet h1, h2⟩
  | feed env pkt source =>
    obtain ⟨h1, h2⟩ := netchanFeed_follows h hok
    exact ⟨congrArg Out.status h1, h2⟩

theorem Alike.untimed {d : Conn} (h : Alike k c d) : d.untimed = c.untimed := by
  obtain ⟨t, rfl, h⟩ := h
  have hch : (fun id => (t.channels id).map (·.stamped fun _ => 0)) =
      fun id => (c.channels id).map (·.stamped fun _ => 0) := by
    funext id
    rcases h.chan id with ⟨h1, h2⟩ | ⟨ch, f, h1, h2, -⟩
    · rw [h1, show t.channels id = none from h2]
    · rw [h1, show t.channels id = some (ch.stamped f) from h2]
      rfl
  exact congrArg (fun tb => c.retime { channels := tb }) hch

theorem same_traces : ∀ {as : List Action} {c d : Conn}, Alike k c d →
    Along Action.apply (fun c a => a.ClockOk k c) c as →
    trace d (as.map (·.shift k)) = trace c as
  | [], _, _, _, _ => rfl
  | a :: as, c, d, h, hs => by
    obtain ⟨h1, h2⟩ := action_alike h hs.1
    rw [List.map_cons, trace, trace, h1, h2.untimed, same_traces h2 hs.2]

end

/-- **The origin of the clock does not show**: in every run whose calls meet the clock alike, the
calls return the same, packets and events included, and leave the same connection as on a clock
that is ahead by `k`. -/
theorem clock_origin_unseen (server : Bool) (k : UInt32) (as : List Action)
    (h : Along Action.apply (fun c a => a.ClockOk k c) (netchanOpen server) as) :
    trace (netchanOpen server) (as.map (·.shift k)) = trace (netchanOpen server) as := by
  refine same_traces ⟨{}, rfl, .unset k, .unset k, .unset k, fun hd => ?_, fun _ => .none⟩ h
  exact absurd hd (by cases server <;> decide)

/-- A client that connects, opens a channel, writes a message and sends it when its clock reads
`sent`; the message is not acknowledged, and `netchan_service` runs 100 ms later. -/
def resendActions (sent : UInt32) : List Action :=
  let pkt (f : Frame) := ncPktFlagPktnum :: wr32 7 ++ wr16 0 ++ f.encode
  [.call (.connect { now := sent - 20, entropy := 7 } [1]), .sendNext { now := sent - 19 } 1200,
    .feed { now := sent - 10 } (pkt (.connectAccept 9 ncVersion 30000)) none,
    .call (.chanOpen .reliable .send []), .sendNext { now := sent - 9 } 1200,
    .feed { now := sent - 1 } (pkt (.windowUpdate 0 1000)) none, .call (.write 0 [1, 2, 3]),
    .sendNext { now := sent } 1200,
    .call (.service { now := sent + 100, entropy := 5 } (sent + 100)),
    .sendNext { now := sent + 101 } 1200]

/-- The clock passes zero between the message and its retransmission. -/
theorem clock_origin_unseen_wrapped :
    trace (netchanOpen false) ((resendActions 1000).map (·.shift 4294966250)) =
      trace (netchanOpen false) (resendActions 1000) :=
  clock_origin_unseen false 4294966250 _ (by decide +kernel)

/-- **A message sent when the clock reads 0 is never sent again**: 0 in `sent_ms` says that it was
not sent yet. -/
theorem sent_at_zero_lost :
    trace (netchanOpen false) ((resendActions 1000).map (·.shift 4294966296)) ≠
      trace (netchanOpen false) (resendActions 1000) := by
  intro h
  have h1 := congrArg (List.map fun x => match x.1 with
    | .packet p => p.isSome
    | _ => false) h
  revert h1
  decide +kernel

end Netchan
