import Netchan.Link.Layers

/-!
# What a link sends and what it takes

`wire_sealed`: a datagram that a link sends is its HELLO or a datagram of netchan, sealed under the
session's key with the next counter. `conn_fed`: netchan is given what came out of a DATA packet that
decrypts under the session's key, of every packet once.
-/

namespace Netchan.Link

open Lib Crypto Transport

/-- The datagrams that were sent. -/
def sentOut (log : List Act) : List (List UInt8) :=
  log.filterMap fun
    | .sendto pkt _ => some pkt
    | _ => none

/-- The datagrams that `nc_crypto_seal` wrote, with what is in them. -/
def sealedOut (log : List Act) : List (List UInt8 × List UInt8) :=
  log.filterMap fun
    | .sealed plain (some pkt) => some (plain, pkt)
    | _ => none

/-- What netchan was fed. -/
def fedIn (log : List Act) : List (List UInt8) :=
  log.filterMap fun
    | .feed _ plain _ => some plain
    | _ => none

/-- The DATA packets that were opened, with what came out. -/
def openedIn (log : List Act) : List (List UInt8 × List UInt8) :=
  log.filterMap fun
    | .opened _ pkt (some plain) => if byte pkt 0 = ncCryptoData then some (pkt, plain) else none
    | _ => none

def isData (pkt : List UInt8) : Bool := byte pkt 0 = ncCryptoData

section
variable {P : Monocypher} {hear : Session → List UInt8 → Prop} {l0 l : AuthLink}

theorem sentOut_does (l : AuthLink) (act : Act) :
    sentOut (l.does P act).log = sentOut l.log ++ sentOut [act] := by
  rw [log_does, sentOut, List.filterMap_append]
  rfl

theorem sealedOut_does (l : AuthLink) (act : Act) :
    sealedOut (l.does P act).log = sealedOut l.log ++ sealedOut [act] := by
  rw [log_does, sealedOut, List.filterMap_append]
  rfl

theorem fedIn_does (l : AuthLink) (act : Act) :
    fedIn (l.does P act).log = fedIn l.log ++ fedIn [act] := by
  rw [log_does, fedIn, List.filterMap_append]
  rfl

theorem openedIn_does (l : AuthLink) (act : Act) :
    openedIn (l.does P act).log = openedIn l.log ++ openedIn [act] := by
  rw [log_does, openedIn, List.filterMap_append]
  rfl

/-! ## Sending -/

/-- What the log says of what was sent. -/
structure Sends (P : Monocypher) (l : AuthLink) : Prop where
  count : (sealedOut l.log).length = l.crypto.txCounter.toNat
  numbered : ∀ i plain pkt, (sealedOut l.log)[i]? = some (plain, pkt) → l.crypto.haveKey = true ∧
    pkt = sealed P l.crypto.txKey (.ofNat (i + 1)) plain ∧
    ∃ env dest, .sendNext env (some (plain, dest)) ∈ l.log
  sent : ∀ pkt ∈ sentOut l.log,
    ncCryptoHandshakePacket l.crypto ncCryptoHelloLen = some pkt ∨
      ∃ plain, (plain, pkt) ∈ sealedOut l.log
  once : ((sentOut l.log).filter isData).Sublist ((sealedOut l.log).map Prod.snd)
  pending : ∀ plain pkt, l.log.getLast? = some (.sealed plain (some pkt)) →
    ((sentOut l.log).filter isData).Sublist ((sealedOut l.log).map Prod.snd).dropLast

theorem New.sends (h : New l) (hu : l.crypto.txCounter = 0) : Sends P l := by
  refine ⟨?_, ?_, ?_, ?_, ?_⟩ <;> rw [h.log]
  · rw [hu]
    rfl
  · intro i plain pkt hi
    simp [sealedOut] at hi
  · simp [sentOut]
  · simp [sentOut, sealedOut]
  · simp

theorem Sends.keyed (h : Sends P l) (hk : l.crypto.haveKey = false) : sealedOut l.log = [] := by
  rcases hs : sealedOut l.log with _ | ⟨⟨plain, pkt⟩, rest⟩
  · rfl
  · exact absurd ((h.numbered 0 plain pkt (by rw [hs]; rfl)).1.symm.trans hk) (by decide)

/-- An act that neither seals nor sends, and keeps what the session sends with. -/
theorem Sends.aside (h : Sends P l) {act : Act} (h1 : sealedOut [act] = []) (h2 : sentOut [act] = [])
    (hc : (l.does P act).crypto.txCounter = l.crypto.txCounter)
    (hk : l.crypto.haveKey = true → (l.does P act).crypto.haveKey = true ∧
      (l.does P act).crypto.txKey = l.crypto.txKey)
    (hf : (l.does P act).crypto.fixed = l.crypto.fixed)
    (hlast : ∀ plain pkt, act ≠ .sealed plain (some pkt)) :
    Sends P (l.does P act) := by
  have hs1 : sealedOut (l.does P act).log = sealedOut l.log := by
    rw [sealedOut_does, h1, List.append_nil]
  have hs2 : sentOut (l.does P act).log = sentOut l.log := by
    rw [sentOut_does, h2, List.append_nil]
  refine ⟨?_, ?_, ?_, ?_, ?_⟩
  · rw [hs1, hc]
    exact h.count
  · rw [hs1]
    intro i plain pkt hi
    obtain ⟨hkey, hp, env, dest, hmem⟩ := h.numbered i plain pkt hi
    obtain ⟨hk1, hk2⟩ := hk hkey
    refine ⟨hk1, hk2 ▸ hp, env, dest, ?_⟩
    rw [log_does]
    exact List.mem_append_left _ hmem
  · rw [hs1, hs2, handshakePacket_fixed hf]
    exact h.sent
  · rw [hs1, hs2]
    exact h.once
  · rw [getLast_does]
    intro plain pkt he
    exact absurd (Option.some.inj he) (hlast plain pkt)

/-- A datagram is sealed under the next counter. -/
theorem Sends.sealed (h : Sends P l) {plain : List UInt8} {out : Option (List UInt8)}
    (hmay : May P hear l (.sealed plain out)) : Sends P (l.does P (.sealed plain out)) := by
  obtain ⟨hout, env, dest, hlast⟩ := hmay
  rcases seal_cases P l.crypto plain sealedSize with ⟨hk, hn, he⟩ | he
  · rw [he] at hout
    subst hout
    have hcrypto : (l.does P (.sealed plain (some (Crypto.sealed P l.crypto.txKey
        (l.crypto.txCounter + 1) plain)))).crypto =
        { l.crypto with txCounter := l.crypto.txCounter + 1 } := congrArg Prod.snd he
    have hidx : UInt64.ofNat ((sealedOut l.log).length + 1) = l.crypto.txCounter + 1 := by
      rw [h.count, hn, UInt64.ofNat_toNat]
    have hsent : sentOut (l.does P (.sealed plain (some (Crypto.sealed P l.crypto.txKey
        (l.crypto.txCounter + 1) plain)))).log = sentOut l.log := by
      rw [sentOut_does]
      exact List.append_nil _
    refine ⟨?_, ?_, ?_, ?_, ?_⟩
    · rw [sealedOut_does, hcrypto, List.length_append, h.count]
      exact hn
    · rw [sealedOut_does, hcrypto]
      intro i plain' pkt hi
      rcases Nat.lt_or_ge i (sealedOut l.log).length with hlt | hge
      · rw [List.getElem?_append_left hlt] at hi
        obtain ⟨-, hp, env', dest', hmem⟩ := h.numbered i plain' pkt hi
        refine ⟨hk, hp, env', dest', ?_⟩
        rw [log_does]
        exact List.mem_append_left _ hmem
      · rw [List.getElem?_append_right hge] at hi
        obtain ⟨hi0, hi⟩ := List.getElem?_eq_some_iff.1 hi
        have hi0 : i - (sealedOut l.log).length < 1 := hi0
        have hlen : i = (sealedOut l.log).length := by omega
        subst hlen
        simp only [Nat.sub_self] at hi
        obtain ⟨rfl, rfl⟩ := Prod.mk.inj hi
        refine ⟨hk, by rw [hidx], env, dest, ?_⟩
        rw [log_does]
        exact List.mem_append_left _ (List.mem_of_getLast? hlast)
    · rw [hsent, hcrypto, sealedOut_does]
      intro pkt hpkt
      exact (h.sent pkt hpkt).imp id fun ⟨p, hp⟩ => ⟨p, List.mem_append_left _ hp⟩
    · rw [hsent, sealedOut_does, List.map_append]
      exact h.once.trans (List.sublist_append_left _ _)
    · rw [hsent, sealedOut_does, List.map_append]
      intro _ _ _
      have : (List.map Prod.snd (sealedOut [Act.sealed plain (some (Crypto.sealed P l.crypto.txKey
        (l.crypto.txCounter + 1) plain))])) = [_] := rfl
      rw [this, List.dropLast_concat]
      exact h.once
  · rw [he] at hout
    subst hout
    have hcrypto : (l.does P (.sealed plain none)).crypto = l.crypto := congrArg Prod.snd he
    exact h.aside rfl rfl (by rw [hcrypto]) (fun hk => by rw [hcrypto]; exact ⟨hk, rfl⟩)
      (by rw [hcrypto]) (by simp)

theorem Sends.sendto (h : Sends P l) {pkt : List UInt8} {dest : SockAddr}
    (hmay : May P hear l (.sendto pkt dest)) : Sends P (l.does P (.sendto pkt dest)) := by
  have hseal : sealedOut (l.does P (.sendto pkt dest)).log = sealedOut l.log := by
    rw [sealedOut_does]
    exact List.append_nil _
  have hnew : sentOut [Act.sendto pkt dest] = [pkt] := rfl
  refine ⟨?_, ?_, ?_, ?_, ?_⟩
  · rw [hseal]
    exact h.count
  · rw [hseal]
    intro i plain pkt' hi
    obtain ⟨hk, hp, env, dest', hmem⟩ := h.numbered i plain pkt' hi
    refine ⟨hk, hp, env, dest', ?_⟩
    rw [log_does]
    exact List.mem_append_left _ hmem
  · rw [sentOut_does, hnew, hseal]
    intro pkt' hmem
    rcases List.mem_append.1 hmem with hmem | hmem
    · exact h.sent pkt' hmem
    · obtain rfl := List.mem_singleton.1 hmem
      rcases hmay with ⟨plain, hlast⟩ | hhello
      · refine .inr ⟨plain, List.mem_filterMap.2 ⟨_, List.mem_of_getLast? hlast, rfl⟩⟩
      · exact .inl hhello
  · rw [sentOut_does, hnew, hseal, List.filter_append]
    rcases hmay with ⟨plain, hlast⟩ | hhello
    · have hdrop := h.pending plain pkt hlast
      have hend : (sealedOut l.log).getLast? = some (plain, pkt) := by
        obtain ⟨log, hlog⟩ := List.getLast?_eq_some_iff.1 hlast
        rw [hlog, sealedOut, List.filterMap_append]
        exact List.getLast?_concat ..
      have hsplit : (sealedOut l.log).map Prod.snd =
          ((sealedOut l.log).map Prod.snd).dropLast ++ [pkt] := by
        refine (List.dropLast_append_getLast? pkt ?_).symm
        rw [List.getLast?_map, hend]
        rfl
      rw [hsplit]
      exact hdrop.append (List.filter_sublist)
    · have hno : isData pkt = false := by
        unfold ncCryptoHandshakePacket at hhello
        split at hhello
        · cases hhello
        · obtain rfl := Option.some.inj hhello
          rfl
      rw [List.filter_cons_of_neg (by rw [hno]; decide), List.filter_nil, List.append_nil]
      exact h.once
  · rw [getLast_does]
    intro _ _ he
    cases Option.some.inj he

/-- **An act keeps what the log says of what was sent.** -/
theorem Sends.act (h : Sends P l) {act : Act} (hmay : May P hear l act) : Sends P (l.does P act) := by
  cases act with
  | sealed plain out => exact h.sealed hmay
  | sendto pkt dest => exact h.sendto hmay
  | opened answer pkt out =>
    refine h.aside rfl rfl ?_ (fun hk => ?_) (step_fixed l.crypto (.recv answer pkt bufSize)) (by simp)
    · change (ncCryptoOpen P answer l.crypto pkt bufSize).2.1.txCounter = l.crypto.txCounter
      rcases open_cases P answer l.crypto pkt bufSize with
        ⟨_, c, he, -, -, -, -, hre⟩ | ⟨c, acts, he, -, hc⟩ | he
      · obtain ⟨w, m, rfl⟩ := replay_frame hre
        rw [he]
      · rw [he]
        exact congrArg Prod.fst hc
      · rw [he]
    · obtain ⟨h1, h2⟩ := keyed_step (P := P) hk (.recv answer pkt bufSize)
      exact ⟨h1, (agreed_ext h2).1⟩
  | _ => exact h.aside rfl rfl rfl (fun hk => ⟨hk, rfl⟩) rfl (by simp)

/-! ## Receiving -/

/-- What the log says of what was taken. -/
structure Takes (P : Monocypher) (l : AuthLink) : Prop where
  opened : ∀ o ∈ openedIn l.log, l.crypto.haveKey = true ∧ ncCryptoOverhead ≤ o.1.length ∧
    P.aeadUnlock l.crypto.rxKey (nonceOf (rd64be o.1 1)) (bytesAt 16 o.1 9)
      (o.1.drop ncCryptoOverhead) = some o.2
  exact : Replay.Exact l.crypto.rxMax l.crypto.rxWindow ((openedIn l.log).map fun o => rd64be o.1 1)
  fresh : ((openedIn l.log).map fun o => rd64be o.1 1).Nodup
  fed : (fedIn l.log).Sublist ((openedIn l.log).map Prod.snd)
  pending : ∀ answer pkt b plain, l.log.getLast? = some (.opened answer pkt (some (b :: plain))) →
    byte pkt 0 = ncCryptoData ∧ (fedIn l.log).Sublist ((openedIn l.log).map Prod.snd).dropLast

theorem New.takes (h : New l) (hm : l.crypto.rxMax = 0) (hw : l.crypto.rxWindow = 0) : Takes P l := by
  refine ⟨?_, ?_, ?_, ?_, ?_⟩ <;> rw [h.log]
  · simp [openedIn]
  · rw [hm, hw]
    exact Replay.exact_nil
  · simp [openedIn]
  · simp [fedIn, openedIn]
  · simp

/-- An act that neither opens nor feeds, and keeps what the session opens with. -/
theorem Takes.aside (h : Takes P l) {act : Act} (h1 : openedIn [act] = []) (h2 : fedIn [act] = [])
    (hm : (l.does P act).crypto.rxMax = l.crypto.rxMax)
    (hw : (l.does P act).crypto.rxWindow = l.crypto.rxWindow)
    (hk : l.crypto.haveKey = true → (l.does P act).crypto.haveKey = true ∧
      (l.does P act).crypto.rxKey = l.crypto.rxKey)
    (hlast : ∀ answer pkt b plain, act ≠ .opened answer pkt (some (b :: plain))) :
    Takes P (l.does P act) := by
  have hs1 : openedIn (l.does P act).log = openedIn l.log := by
    rw [openedIn_does, h1, List.append_nil]
  have hs2 : fedIn (l.does P act).log = fedIn l.log := by
    rw [fedIn_does, h2, List.append_nil]
  refine ⟨?_, ?_, ?_, ?_, ?_⟩
  · rw [hs1]
    intro o ho
    obtain ⟨hkey, hlen, hun⟩ := h.opened o ho
    obtain ⟨hk1, hk2⟩ := hk hkey
    exact ⟨hk1, hlen, hk2 ▸ hun⟩
  · rw [hs1, hm, hw]
    exact h.exact
  · rw [hs1]
    exact h.fresh
  · rw [hs1, hs2]
    exact h.fed
  · rw [getLast_does]
    intro answer pkt b plain he
    exact absurd (Option.some.inj he) (hlast answer pkt b plain)

theorem Takes.open (h : Takes P l) {answer : Option Key → Bool} {pkt : List UInt8}
    {out : Option (List UInt8)} (hmay : May P hear l (.opened answer pkt out)) :
    Takes P (l.does P (.opened answer pkt out)) := by
  obtain ⟨hout, -⟩ := hmay
  have hkey (hk : l.crypto.haveKey = true) :
      (l.does P (.opened answer pkt out)).crypto.haveKey = true ∧
        (l.does P (.opened answer pkt out)).crypto.rxKey = l.crypto.rxKey := by
    obtain ⟨h1, h2⟩ := keyed_step (P := P) hk (.recv answer pkt bufSize)
    exact ⟨h1, (agreed_ext h2).2.1⟩
  rcases open_cases P answer l.crypto pkt bufSize with
    ⟨plain, c, he, h0, hlen, hk, hun, hre⟩ | ⟨c, acts, he, h0, hc⟩ | he
  · -- a DATA packet that was not seen
    rw [he] at hout
    subst hout
    have hnew : openedIn [Act.opened answer pkt (some plain)] = [(pkt, plain)] := by
      simp [openedIn, h0]
    have hcrypto : (l.does P (.opened answer pkt (some plain))).crypto = c :=
      congrArg (fun r => r.2.1) he
    have hfed : fedIn (l.does P (.opened answer pkt (some plain))).log = fedIn l.log := by
      rw [fedIn_does]
      exact List.append_nil _
    obtain ⟨hnot, hexact⟩ := replay_exact h.exact hre
    refine ⟨?_, ?_, ?_, ?_, ?_⟩
    · rw [openedIn_does, hnew]
      intro o ho
      rcases List.mem_append.1 ho with ho | ho
      · obtain ⟨hk', hlen', hun'⟩ := h.opened o ho
        exact ⟨(hkey hk').1, hlen', by rw [(hkey hk').2]; exact hun'⟩
      · obtain rfl := List.mem_singleton.1 ho
        exact ⟨(hkey hk).1, hlen, by rw [(hkey hk).2]; exact hun⟩
    · rw [openedIn_does, hnew, List.map_append, hcrypto]
      exact hexact
    · rw [openedIn_does, hnew, List.map_append, List.nodup_append]
      refine ⟨h.fresh, by simp, fun x hx y hy hxy => hnot ?_⟩
      obtain rfl := List.mem_singleton.1 hy
      subst hxy
      exact hx
    · rw [openedIn_does, hnew, hfed, List.map_append]
      exact h.fed.trans (List.sublist_append_left _ _)
    · rw [openedIn_does, hnew, hfed, List.map_append]
      intro _ _ _ _ hlast
      rw [getLast_does] at hlast
      obtain ⟨-, rfl, -⟩ := Act.opened.inj (Option.some.inj hlast)
      rw [List.map_singleton, List.dropLast_concat]
      exact ⟨h0, h.fed⟩
  · -- a HELLO
    rw [he] at hout
    subst hout
    obtain ⟨-, hm, hw⟩ : c.txCounter = l.crypto.txCounter ∧ c.rxMax = l.crypto.rxMax ∧
        c.rxWindow = l.crypto.rxWindow := by simpa [Session.counters] using hc
    have hcrypto : (l.does P (.opened answer pkt (some []))).crypto = c :=
      congrArg (fun r => r.2.1) he
    exact h.aside (by simp [openedIn, h0]) rfl (by rw [hcrypto, hm]) (by rw [hcrypto, hw]) hkey
      (by simp)
  · rw [he] at hout
    subst hout
    have hcrypto : (l.does P (.opened answer pkt none)).crypto = l.crypto :=
      congrArg (fun r => r.2.1) he
    exact h.aside rfl rfl (by rw [hcrypto]) (by rw [hcrypto]) hkey (by simp)

theorem Takes.feed (h : Takes P l) {env : Netchan.Env} {plain : List UInt8} {source : Addr}
    (hmay : May P hear l (.feed env plain source)) : Takes P (l.does P (.feed env plain source)) := by
  obtain ⟨hne, answer, pkt, hlast⟩ := hmay
  obtain ⟨b, rest, rfl⟩ := List.exists_cons_of_ne_nil hne
  have hopened : openedIn (l.does P (.feed env (b :: rest) source)).log = openedIn l.log := by
    rw [openedIn_does]
    exact List.append_nil _
  refine ⟨?_, ?_, ?_, ?_, ?_⟩
  · rw [hopened]
    exact h.opened
  · rw [hopened]
    exact h.exact
  · rw [hopened]
    exact h.fresh
  · rw [hopened, fedIn_does]
    obtain ⟨h0, hdrop⟩ := h.pending answer pkt b rest hlast
    have hend : (openedIn l.log).getLast? = some (pkt, b :: rest) := by
      obtain ⟨log, hlog⟩ := List.getLast?_eq_some_iff.1 hlast
      have hone : openedIn [Act.opened answer pkt (some (b :: rest))] = [(pkt, b :: rest)] := by
        simp [openedIn, h0]
      rw [hlog, openedIn, List.filterMap_append]
      exact (congrArg (fun t => (List.filterMap _ log ++ t).getLast?) hone).trans
        (List.getLast?_concat ..)
    have hsplit : (openedIn l.log).map Prod.snd =
        ((openedIn l.log).map Prod.snd).dropLast ++ [b :: rest] := by
      refine (List.dropLast_append_getLast? (b :: rest) ?_).symm
      rw [List.getLast?_map, hend]
      rfl
    rw [hsplit]
    exact hdrop.append (List.Sublist.refl _)
  · rw [getLast_does]
    intro _ _ _ _ he
    cases Option.some.inj he

/-- **An act keeps what the log says of what was taken.** -/
theorem Takes.act (h : Takes P l) {act : Act} (hmay : May P hear l act) : Takes P (l.does P act) := by
  cases act with
  | opened answer pkt out => exact h.open hmay
  | feed env plain source => exact h.feed hmay
  | sealed plain out =>
    refine h.aside rfl rfl ?_ ?_ (fun hk => ?_) (by simp)
    · change (ncCryptoSeal P l.crypto plain sealedSize).2.rxMax = l.crypto.rxMax
      rcases seal_cases P l.crypto plain sealedSize with ⟨-, -, he⟩ | he <;> rw [he]
    · change (ncCryptoSeal P l.crypto plain sealedSize).2.rxWindow = l.crypto.rxWindow
      rcases seal_cases P l.crypto plain sealedSize with ⟨-, -, he⟩ | he <;> rw [he]
    · obtain ⟨h1, h2⟩ := keyed_step (P := P) hk (.send plain sealedSize)
      exact ⟨h1, (agreed_ext h2).2.1⟩
  | _ => exact h.aside rfl rfl rfl rfl (fun hk => ⟨hk, rfl⟩) (by simp)

theorem wire_moves (h : Moves P hear l0 l) (h0 : New l0) (hu : l0.crypto.Unused) :
    Sends P l ∧ Takes P l := by
  induction h with
  | refl => exact ⟨h0.sends hu.1, h0.takes hu.2.1 hu.2.2⟩
  | tail _ hm ih =>
    obtain ⟨h1, h2⟩ := ih
    cases hm with
    | act hmay => exact ⟨h1.act hmay, h2.act hmay⟩
    | note =>
      exact ⟨⟨h1.count, h1.numbered, h1.sent, h1.once, h1.pending⟩,
        ⟨h2.opened, h2.exact, h2.fresh, h2.fed, h2.pending⟩⟩
    | close =>
      exact ⟨⟨h1.count, h1.numbered, h1.sent, h1.once, h1.pending⟩,
        ⟨h2.opened, h2.exact, h2.fresh, h2.fed, h2.pending⟩⟩

end

/-! ## Runs -/

section
variable {P : Monocypher} {io : Nat → Moment} {limit depth : Nat} {cfg : Cfg} {random : Option Key}
  {evs : List Event} {l : AuthLink}

theorem unused_init {l0 : AuthLink} (h : AuthLink.init P cfg random = some l0) : l0.crypto.Unused := by
  obtain ⟨ephSk, he⟩ := ncCryptoInit_spec (init_spec h).2.2.2.2.2
  rw [he]
  exact ⟨rfl, rfl, rfl⟩

/-- **Nothing leaves a link in the clear**: whatever reaches it and whatever the application does, a
datagram that it sends is its HELLO or was sealed, each sealed datagram is sent once at most, and the
`i`-th that was sealed is a datagram of netchan under the session's key with the counter `i + 1`. -/
theorem wire_sealed (h : Opened P io limit depth cfg random evs l) :
    (∀ pkt ∈ sentOut l.log, ncCryptoHandshakePacket l.crypto ncCryptoHelloLen = some pkt ∨
      ∃ plain, (plain, pkt) ∈ sealedOut l.log) ∧
    ((sentOut l.log).filter isData).Sublist ((sealedOut l.log).map Prod.snd) ∧
    (sealedOut l.log).length < 2 ^ 64 ∧
    ∀ i plain pkt, (sealedOut l.log)[i]? = some (plain, pkt) → l.crypto.haveKey = true ∧
      pkt = sealed P l.crypto.txKey (.ofNat (i + 1)) plain ∧
      ∃ env dest, .sendNext env (some (plain, dest)) ∈ l.log := by
  obtain ⟨l0, hinit, hnew, hm⟩ := opened_moves h
  have hs := (wire_moves hm hnew (unused_init hinit)).1
  exact ⟨hs.sent, hs.once, hs.count ▸ l.crypto.txCounter.toNat_lt, hs.numbered⟩

/-- Three datagrams of a server are sealed while a client logs in. -/
theorem wire_sealed_sample : (sealedOut sampleServer.log).length = 3 ∧
    ((sentOut sampleServer.log).filter isData).Sublist ((sealedOut sampleServer.log).map Prod.snd) :=
  ⟨by decide +kernel, (wire_sealed sampleServer_opened).2.1⟩

/-- **netchan hears only what was sealed**: what it is fed are plaintexts of DATA packets that decrypt
under the session's key, in the order in which they were opened, and no two of these packets have the
same counter. -/
theorem conn_fed (h : Opened P io limit depth cfg random evs l) :
    (fedIn l.log).Sublist ((openedIn l.log).map Prod.snd) ∧
    ((openedIn l.log).map fun o => rd64be o.1 1).Nodup ∧
    ∀ o ∈ openedIn l.log, l.crypto.haveKey = true ∧ ncCryptoOverhead ≤ o.1.length ∧
      P.aeadUnlock l.crypto.rxKey (nonceOf (rd64be o.1 1)) (bytesAt 16 o.1 9)
        (o.1.drop ncCryptoOverhead) = some o.2 := by
  obtain ⟨l0, hinit, hnew, hm⟩ := opened_moves h
  have ht := (wire_moves hm hnew (unused_init hinit)).2
  exact ⟨ht.fed, ht.fresh, ht.opened⟩

/-- Four datagrams of the client are opened. -/
theorem conn_fed_sample : (openedIn sampleServer.log).length = 4 ∧
    ((openedIn sampleServer.log).map fun o => rd64be o.1 1).Nodup :=
  ⟨by decide +kernel, (conn_fed sampleServer_opened).2.1⟩

end

end Netchan.Link
