import Netchan.Proof.Parser

/-!
# The peer's address

`netchan_feed` learns the peer's address, or moves a connected session to a new one, before it
looks at the frames. `rejected_keeps_peer` says for which datagrams that makes no difference: those
with a body of whole frames (`Frames`) and those whose address is not taken (`TakesAddr`). A first
datagram that is rejected leaves its address behind (`malformed_takes_slot`).
-/

namespace Netchan

open Lib

/-- A body that `parse_frames` consumes: padding and whole frames, each of a kind this end takes. -/
inductive Frames (server : Bool) : List UInt8 → Prop
  | nil : Frames server []
  | pad {p : List UInt8} (h : Frames server p) : Frames server (0 :: p)
  | frame {b : UInt8} {p : List UInt8} {f : Frame} {n : Nat} (hb : b ≠ 0)
      (hd : decodeFrame (b :: p) = some (f, n)) (ha : f.AcceptedBy server)
      (h : Frames server ((b :: p).drop n)) : Frames server (b :: p)

theorem applyFrame_isSome (env : Env) (c : Conn) (f : Frame) :
    (applyFrame env c f).isSome ↔ f.AcceptedBy c.server := by
  cases f <;> simp [applyFrame, Frame.AcceptedBy]

theorem parseLoop_ok (env : Env) (fuel : Nat) (c : Conn) (p : List UInt8) (hl : p.length ≤ fuel) :
    (parseLoop env fuel c p).1 = .ok () ↔ Frames c.server p := by
  induction fuel generalizing c p with
  | zero =>
    obtain rfl := List.length_eq_zero_iff.1 (Nat.le_zero.1 hl)
    exact ⟨fun _ => .nil, fun _ => rfl⟩
  | succ fuel ih =>
    cases p with
    | nil => exact ⟨fun _ => .nil, fun _ => rfl⟩
    | cons b p =>
      have hp : p.length ≤ fuel := Nat.le_of_succ_le_succ hl
      unfold parseLoop
      split
      · rename_i hb
        subst hb
        rw [ih c p hp]
        refine ⟨.pad, fun h => ?_⟩
        cases h with
        | pad h => exact h
        | frame hb => exact absurd rfl hb
      · rename_i hb
        rw [processFrame_eq]
        cases hd : decodeFrame (b :: p) with
        | none =>
          refine ⟨fun h => (by cases h), fun h => ?_⟩
          cases h with
          | pad h => exact absurd rfl hb
          | frame _ hd' =>
            rw [hd] at hd'
            cases hd'
        | some q =>
          obtain ⟨f, n⟩ := q
          have hsome := applyFrame_isSome env c f
          cases ha : applyFrame env c f with
          | none =>
            rw [ha] at hsome
            simp only [handle, ha]
            refine ⟨fun h => (by cases h), fun h => ?_⟩
            cases h with
            | pad h => exact absurd rfl hb
            | frame _ hd' ha' =>
              rw [hd] at hd'
              cases hd'
              exact absurd (hsome.2 ha') (by simp)
          | some c' =>
            rw [ha] at hsome
            have hn := decodeFrame_length hd
            have hserver : c'.server = c.server := by
              have := (stepFrame_fixed env c f).1
              rwa [stepFrame, ha, Option.getD_some] at this
            simp only [handle, ha]
            rw [ih c' _ (by simp only [List.length_drop, List.length_cons]; omega),
              hserver]
            refine ⟨.frame hb hd (hsome.1 rfl), fun h => ?_⟩
            cases h with
            | pad h => exact absurd rfl hb
            | frame _ hd' _ h =>
              rw [hd] at hd'
              cases hd'
              exact h

theorem stepFrame_peer (env : Env) (c : Conn) (f : Frame) :
    (stepFrame env c f).peerAddr = c.peerAddr := by
  cases f with
  | connectInit id =>
    simp only [stepFrame, applyFrame, initReceived]
    by_cases h1 : c.server <;> by_cases h2 : c.state = .new <;> simp [h1, h2]
  | connectAccept id v idle =>
    simp only [stepFrame, applyFrame]
    split <;> rfl
  | disconnect reason =>
    simp only [stepFrame, applyFrame, disconnectReceived, Option.getD_some]
    split <;> rfl
  | pong opaq =>
    simp only [stepFrame, applyFrame, pongReceived, Option.getD_some]
    split <;> rfl
  | channelOpen id type dir ct =>
    simp only [stepFrame, applyFrame, channelOpened_eq, Option.getD_some]
    split <;> rfl
  | channelClose id error =>
    simp only [stepFrame, applyFrame, channelClosed, Option.getD_some]
    split <;> rfl
  | data id seq fragIdx fragTotal payload =>
    simp only [stepFrame, applyFrame, dataReceived, Option.getD_some]
    repeat' split
    all_goals rfl
  | ack id seq =>
    simp only [stepFrame, applyFrame, ackReceived, Option.getD_some]
    repeat' split
    all_goals rfl
  | windowUpdate id w =>
    simp only [stepFrame, applyFrame, windowUpdated, Option.getD_some]
    repeat' split
    all_goals rfl
  | _ => rfl

theorem parseFrames_peer (env : Env) (c : Conn) (data : List UInt8) :
    (parseFrames env c data).2.peerAddr = c.peerAddr := by
  rw [parseFrames_run]
  exact run_invariant (I := fun c' : Conn => c'.peerAddr = c.peerAddr) (A := fun _ _ => True)
    (fun c' f h _ => (stepFrame_peer env c' f).trans h) rfl (along_true _)

/-- The source address of a datagram replaces the peer's: there is none yet, or the session is
connected and the first frame looks like DATA or ACK for one of its channels. -/
def TakesAddr (c : Conn) (frames : List UInt8) (source : Option Addr) : Prop :=
  ∃ a, source = some a ∧ a ≠ [] ∧ (c.peerAddr = [] ∨
    c.state = .connected ∧ a ≠ c.peerAddr ∧ validateMigration c frames = true)

theorem updatePeer_addr (c : Conn) (frames : List UInt8) (a : Addr) :
    (updatePeer c frames (some a)).peerAddr = if a ≠ [] ∧ (c.peerAddr = [] ∨
      c.state = .connected ∧ a ≠ c.peerAddr ∧ validateMigration c frames = true) then a
    else c.peerAddr := by
  simp only [updatePeer]
  by_cases ha : a = []
  · simp [ha]
  by_cases hp : c.peerAddr = []
  · simp [ha, hp]
  by_cases hm : c.state = .connected ∧ a ≠ c.peerAddr ∧ validateMigration c frames = true
  · simp [ha, hp, hm]
  · have hm' : ¬ (a ≠ [] ∧ c.peerAddr ≠ [] ∧ c.state = .connected ∧ a ≠ c.peerAddr ∧
        validateMigration c frames = true) := fun h => hm h.2.2
    have hnew : ¬ (a ≠ [] ∧ (c.peerAddr = [] ∨ c.state = .connected ∧ a ≠ c.peerAddr ∧
        validateMigration c frames = true)) := fun h => h.2.elim hp hm
    rw [if_neg hm', if_neg hnew, if_neg fun h => hp h.1]

theorem updatePeer_same (c : Conn) (frames : List UInt8) (source : Option Addr) :
    (updatePeer c frames source).peerAddr = c.peerAddr ↔ ¬ TakesAddr c frames source := by
  cases source with
  | none => exact ⟨fun _ h => (by obtain ⟨_, h, _⟩ := h; cases h), fun _ => rfl⟩
  | some a =>
    rw [updatePeer_addr]
    split
    · rename_i h
      refine ⟨fun he => ?_, fun hn => absurd ⟨a, rfl, h⟩ hn⟩
      rcases h with ⟨ha, hp | hp⟩
      · exact absurd (he.trans hp) ha
      · exact absurd he hp.2.1
    · rename_i h
      refine ⟨fun _ => ?_, fun _ => rfl⟩
      rintro ⟨b, hb, h'⟩
      cases hb
      exact h h'

theorem netchanFeed_peer (env : Env) {c : Conn} {pkt : List UInt8} (source : Option Addr)
    (h : headerOk c pkt = true) : (netchanFeed env c pkt source).2.peerAddr =
      (updatePeer c (pkt.drop (hdrSize (byte pkt 0))) source).peerAddr := by
  rw [netchanFeed, if_pos h, parseFrames_peer]
  rfl

theorem netchanFeed_ok (env : Env) {c : Conn} {pkt : List UInt8} (source : Option Addr)
    (h : headerOk c pkt = true) : (netchanFeed env c pkt source).1 = .ok () ↔
      Frames c.server (pkt.drop (hdrSize (byte pkt 0))) := by
  have hserver : (fedConn env c pkt source).server = c.server := by
    unfold fedConn updatePeer
    dsimp only
    repeat' split
    all_goals rfl
  rw [netchanFeed, if_pos h, parseFrames, parseLoop_ok env _ _ _ (Nat.le_refl _), hserver]

/-- **A rejected datagram does not move the peer** exactly if its body is made of whole frames (and
it is not rejected), or its source address would not be taken. -/
theorem rejected_keeps_peer (env : Env) (c : Conn) (pkt : List UInt8) (source : Option Addr) :
    ((∃ e, (netchanFeed env c pkt source).1 = .error e) →
      (netchanFeed env c pkt source).2.peerAddr = c.peerAddr) ↔
    (headerOk c pkt = true → TakesAddr c (pkt.drop (hdrSize (byte pkt 0))) source →
      Frames c.server (pkt.drop (hdrSize (byte pkt 0)))) := by
  by_cases hh : headerOk c pkt = true
  · rw [netchanFeed_peer env source hh, updatePeer_same, ← netchanFeed_ok env source hh]
    simp only [hh, true_imp_iff]
    refine ⟨fun h ht => ?_, fun h ⟨e, he⟩ ht => ?_⟩
    · cases hr : (netchanFeed env c pkt source).1 with
      | ok u => rfl
      | error e => exact absurd ht (h ⟨e, hr⟩)
    · rw [h ht] at he
      cases he
  · refine ⟨fun _ h => absurd h hh, fun _ _ => ?_⟩
    rw [netchanFeed, if_neg hh]

/-- A server with a session and a channel. -/
def sessionSteps : List Step :=
  [.header { now := 1 } [1, 0, 0, 0, 0] (some [7]), .frame { entropy := 9 } (.connectInit 7),
    .call .accept, .frame {} (.channelOpen 0 .reliable .send [])]

/-- A datagram of one unknown frame is rejected by a fresh server, which takes its source for the
peer; and four bytes of a DATA frame, rejected too, move a connected session. -/
theorem malformed_takes_slot :
    ((netchanOpen true).peerAddr = [] ∧
      (netchanFeed {} (netchanOpen true) [1, 0, 0, 0, 0, 0xFF] (some [2])).1 = .error .proto ∧
      (netchanFeed {} (netchanOpen true) [1, 0, 0, 0, 0, 0xFF] (some [2])).2.peerAddr = [2]) ∧
    (runConn true sessionSteps).peerAddr = [7] ∧
    (netchanFeed {} (runConn true sessionSteps) [2, 0, 0, 0, 9, 0, 1, 9, 0, 0, 0] (some [6, 6])).1 =
      .error .proto ∧
    (netchanFeed {} (runConn true sessionSteps) [2, 0, 0, 0, 9, 0, 1, 9, 0, 0, 0]
      (some [6, 6])).2.peerAddr = [6, 6] := by
  refine ⟨⟨rfl, rfl, rfl⟩, rfl, rfl, rfl⟩

end Netchan
