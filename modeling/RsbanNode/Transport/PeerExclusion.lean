import RsbanNode.Transport.SynCookies
import RsbanNode.Library.OrdMap

namespace RsbanNode.Transport

open RsbanNode.Primitives RsbanNode.FiniteMap RsbanNode.OrderedMap RsbanNode.Result

/-- `Timestamp`: the steady clock's milliseconds. Its own `i64` overflow, at 2^63 ms, is left
out. -/
abbrev Timestamp := Int

/-- `Peer`: when its exclusion ends, its address, and its score, raised by each misbehaviour. -/
structure Peer where
  excludeUntil : Timestamp
  address : SocketAddrV6
  score : Nat
deriving DecidableEq

namespace Peer

def scoreLimit : Nat := 2

/-- `EXCLUDE_TIME`, an hour, in milliseconds. -/
def excludeTime : Nat := 60 * 60 * 1000

/-- `EXCLUDE_REMOVE`, a day, in milliseconds. -/
def excludeRemove : Nat := 60 * 60 * 24 * 1000

def new (address : SocketAddrV6) (now : Timestamp) : Peer := ⟨now + excludeTime, address, 1⟩

/-- `exclusion_duration_factor`: `new_score as u32 * 2` keeps the low 32 bits of the score and
doubles them in `u32`, wrapping as a release build does. -/
def exclusionDurationFactor (newScore : Nat) : Nat :=
  if newScore ≤ scoreLimit then 1 else newScore % 2 ^ 32 * 2 % 2 ^ 32

/-- `exclusion_end`; `EXCLUDE_TIME` times a `u32` always fits a `Duration`. -/
def exclusionEnd (newScore : Nat) (now : Timestamp) : Timestamp :=
  now + excludeTime * exclusionDurationFactor newScore

/-- `misbehaved`: `score += 1` on the `u64` score wraps as a release build does. -/
def misbehaved (p : Peer) (now : Timestamp) : Peer :=
  let score := (p.score + 1) % 2 ^ 64
  { p with excludeUntil := exclusionEnd score now, score }

def isExcluded (p : Peer) (now : Timestamp) : Bool :=
  decide (p.score ≥ scoreLimit) && decide (p.excludeUntil > now)

/-- `has_expired`; `EXCLUDE_REMOVE * score as u32` fits a `Duration`. -/
def hasExpired (p : Peer) (now : Timestamp) : Bool :=
  decide (p.excludeUntil + excludeRemove * (p.score % 2 ^ 32) < now)

end Peer

/-- `PeersOrderedByExclusionDate`: the IPs under their exclusion ends, each list in the order
its IPs came. -/
structure PeersOrderedByExclusionDate where
  byDate : OrdMap Timestamp (List Ipv6Addr)

namespace PeersOrderedByExclusionDate

def new : PeersOrderedByExclusionDate := ⟨.empty⟩

/-- `pop`: the last IP under the earliest date; the date goes with its last IP. -/
def pop (o : PeersOrderedByExclusionDate) :
    Except String (Option Ipv6Addr × PeersOrderedByExclusionDate) :=
  match o.byDate.first? with
  | none => .ok (none, o)
  | some (instant, ips) => do
    let ip ← unwrap ips.getLast?
    let ips := ips.dropLast
    if ips.isEmpty then pure (some ip, ⟨o.byDate.erase instant⟩)
    else pure (some ip, ⟨o.byDate.insert instant ips⟩)

/-- `insert`: `entry(exclude_until).or_default().push(ip)`. -/
def insert (o : PeersOrderedByExclusionDate) (ip : Ipv6Addr) (excludeUntil : Timestamp) :
    PeersOrderedByExclusionDate :=
  ⟨o.byDate.insert excludeUntil ((o.byDate.find? excludeUntil).getD [] ++ [ip])⟩

/-- `remove`: the date must be there (`get_mut(..).unwrap()`); the IP leaves its list, and the
date goes with its last IP. -/
def remove (o : PeersOrderedByExclusionDate) (ip : Ipv6Addr) (excludeUntil : Timestamp) :
    Except String PeersOrderedByExclusionDate := do
  let entries ← unwrap (o.byDate.find? excludeUntil)
  let entries := entries.filter (· != ip)
  if entries.isEmpty then pure ⟨o.byDate.erase excludeUntil⟩
  else pure ⟨o.byDate.insert excludeUntil entries⟩

def updateExclusionEnd (o : PeersOrderedByExclusionDate) (oldDate : Timestamp) (peer : Peer) :
    Except String PeersOrderedByExclusionDate := do
  let o ← o.remove peer.address.ip oldDate
  pure (o.insert peer.address.ip peer.excludeUntil)

end PeersOrderedByExclusionDate

/-- `PeerExclusion`: the misbehaving peers by IP and by exclusion end, the bound on their
number, and the perma-banned endpoints. -/
structure PeerExclusion where
  orderedByDate : PeersOrderedByExclusionDate
  byIp : Table Ipv6Addr Peer
  maxSize : Nat
  permaBans : List SocketAddrV6

namespace PeerExclusion

def withMaxSize (maxSize : Nat) : PeerExclusion := ⟨.new, ∅, maxSize, []⟩

def new : PeerExclusion := withMaxSize 5000

def insert (pe : PeerExclusion) (peer : Peer) : PeerExclusion :=
  { pe with
    orderedByDate := pe.orderedByDate.insert peer.address.ip peer.excludeUntil
    byIp := pe.byIp.insert peer.address.ip peer }

/-- The loop of `clean_old_peers`, for at most `fuel` rounds: while more than one IP is
tracked and at least `max_size`, the one popped from the date index goes. -/
def cleanLoop : Nat → PeerExclusion → Except String PeerExclusion
  | 0, pe => pure pe
  | fuel + 1, pe =>
    if 1 < pe.byIp.keys.length ∧ pe.maxSize ≤ pe.byIp.keys.length then do
      let (ip, orderedByDate) ← pe.orderedByDate.pop
      let ip ← unwrap ip
      cleanLoop fuel { pe with orderedByDate, byIp := pe.byIp.erase ip }
    else pure pe

/-- `clean_old_peers`. Each round drops a tracked IP, so the rounds are at most the IPs. -/
def cleanOldPeers (pe : PeerExclusion) : Except String PeerExclusion :=
  cleanLoop pe.byIp.keys.length pe

/-- `peer_misbehaved`: a tracked IP's peer misbehaves again and moves in the date index if its
end changed; a new IP makes room and is tracked with score one. Returns the new score. -/
def peerMisbehaved (pe : PeerExclusion) (endpoint : SocketAddrV6) (now : Timestamp) :
    Except String (Nat × PeerExclusion) :=
  match pe.byIp.lookup endpoint.ip with
  | some peer => do
    let oldExclusionEnd := peer.excludeUntil
    let peer := peer.misbehaved now
    let orderedByDate ←
      if peer.excludeUntil ≠ oldExclusionEnd then
        pe.orderedByDate.updateExclusionEnd oldExclusionEnd peer
      else pure pe.orderedByDate
    pure (peer.score, { pe with orderedByDate, byIp := pe.byIp.insert endpoint.ip peer })
  | none => do
    let pe ← pe.cleanOldPeers
    let peer := Peer.new endpoint now
    pure (peer.score, pe.insert peer)

def permaBan (pe : PeerExclusion) (peerAddr : SocketAddrV6) : PeerExclusion :=
  { pe with permaBans := pe.permaBans.insert peerAddr }

def remove (pe : PeerExclusion) (endpoint : SocketAddrV6) : Except String PeerExclusion :=
  match pe.byIp.lookup endpoint.ip with
  | some item => do
    let orderedByDate ← pe.orderedByDate.remove item.address.ip item.excludeUntil
    pure { pe with orderedByDate, byIp := pe.byIp.erase endpoint.ip }
  | none => pure pe

/-- `is_excluded`: a perma-ban excludes; otherwise the tracked peer of the IP decides, and is
dropped first if it has expired. -/
def isExcluded (pe : PeerExclusion) (peerAddr : SocketAddrV6) (now : Timestamp) :
    Except String (Bool × PeerExclusion) :=
  if peerAddr ∈ pe.permaBans then pure (true, pe)
  else
    match pe.byIp.lookup peerAddr.ip with
    | some peer => do
      let pe ← if peer.hasExpired now then pe.remove peer.address else pure pe
      pure (peer.isExcluded now, pe)
    | none => pure (false, pe)

def len (pe : PeerExclusion) : Nat := pe.byIp.keys.length + pe.permaBans.length

inductive Call where
  | peerMisbehaved (endpoint : SocketAddrV6) (now : Timestamp)
  | isExcluded (peerAddr : SocketAddrV6) (now : Timestamp)
  | permaBan (peerAddr : SocketAddrV6)

def Call.apply : Call → PeerExclusion → Except String PeerExclusion
  | .peerMisbehaved endpoint now, pe => Prod.snd <$> pe.peerMisbehaved endpoint now
  | .isExcluded peerAddr now, pe => Prod.snd <$> pe.isExcluded peerAddr now
  | .permaBan peerAddr, pe => .ok (pe.permaBan peerAddr)

def run (pe : PeerExclusion) (calls : List Call) : Except String PeerExclusion :=
  calls.foldlM (fun pe call => call.apply pe) pe

end PeerExclusion

/-! ## The date index as a relation -/

theorem mem_dropLast_iff_of_nodup {α : Type} {l : List α} {a x : α} (hl : l.Nodup)
    (ha : l.getLast? = some a) : x ∈ l.dropLast ↔ x ∈ l ∧ x ≠ a := by
  have hsplit := List.dropLast_append_getLast? a ha
  rw [← hsplit] at hl
  have hdisj := (List.nodup_append.mp hl).2.2
  constructor
  · intro hx
    refine ⟨by rw [← hsplit]; exact List.mem_append_left _ hx, fun hxa => ?_⟩
    exact hdisj x hx a (List.mem_singleton_self a) hxa
  · rintro ⟨hx, hxa⟩
    rw [← hsplit] at hx
    rcases List.mem_append.mp hx with hx | hx
    · exact hx
    · exact absurd (List.mem_singleton.mp hx) hxa

namespace PeersOrderedByExclusionDate

variable (o : PeersOrderedByExclusionDate)

def Holds (ip : Ipv6Addr) (t : Timestamp) : Prop := ip ∈ (o.byDate.find? t).getD []

def WellFormed : Prop := ∀ t ips, o.byDate.find? t = some ips → ips ≠ [] ∧ ips.Nodup

variable {o} {ip x : Ipv6Addr} {t t' : Timestamp}

theorem new_wellFormed : new.WellFormed := fun t ips h => by simp [new] at h

theorem not_holds_new : ¬ new.Holds ip t := by simp [Holds, new]

theorem holds_insert : (o.insert ip t).Holds x t' ↔ o.Holds x t' ∨ (x = ip ∧ t' = t) := by
  by_cases ht : t' = t
  · subst ht
    simp [Holds, insert]
  · simp [Holds, insert, ht]

theorem insert_wellFormed (hwf : o.WellFormed) (hnew : ¬ o.Holds ip t) :
    (o.insert ip t).WellFormed := by
  intro t' ips hips
  by_cases ht : t' = t
  · subst ht
    simp only [insert, OrdMap.find?_insert, if_true, Option.some.injEq] at hips
    subst hips
    refine ⟨by simp, ?_⟩
    cases hfind : o.byDate.find? t' with
    | none => simp
    | some old =>
      have hold := (hwf t' old hfind).2
      have hnotin : ip ∉ old := by simpa [Holds, hfind] using hnew
      rw [Option.getD_some]
      exact hold.append (List.nodup_singleton ip) (List.disjoint_singleton.mpr hnotin)
  · simp only [insert, OrdMap.find?_insert, if_neg ht] at hips
    exact hwf t' ips hips

theorem find?_of_holds (h : o.Holds ip t) : ∃ ips, o.byDate.find? t = some ips ∧ ip ∈ ips := by
  cases hfind : o.byDate.find? t with
  | none => simp [Holds, hfind] at h
  | some ips => exact ⟨ips, rfl, by simpa [Holds, hfind] using h⟩

theorem holds_shrink {ips rest : List Ipv6Addr} (hfind : o.byDate.find? t = some ips)
    (hrest : ∀ y, y ∈ rest ↔ y ∈ ips ∧ y ≠ ip) :
    (⟨if rest.isEmpty then o.byDate.erase t else o.byDate.insert t rest⟩ :
      PeersOrderedByExclusionDate).Holds x t' ↔ o.Holds x t' ∧ ¬ (x = ip ∧ t' = t) := by
  by_cases ht : t' = t
  · subst ht
    by_cases hempty : rest.isEmpty
    · have hnil : rest = [] := List.isEmpty_iff.mp hempty
      have hx := hrest x
      simp only [hnil, List.not_mem_nil, false_iff, not_and, not_not] at hx
      simp only [Holds, hempty, if_true, OrdMap.find?_erase_self, Option.getD_none,
        List.not_mem_nil, hfind, Option.getD_some, false_iff, not_and, not_not, and_true]
      exact hx
    · simp [Holds, hempty, hfind, hrest]
  · by_cases hempty : rest.isEmpty <;> simp [Holds, hempty, ht, OrdMap.find?_erase_ne]

theorem wellFormed_shrink (hwf : o.WellFormed) {ips rest : List Ipv6Addr}
    (hfind : o.byDate.find? t = some ips) (hsub : rest.Sublist ips) :
    (⟨if rest.isEmpty then o.byDate.erase t else o.byDate.insert t rest⟩ :
      PeersOrderedByExclusionDate).WellFormed := by
  intro t' l hl
  by_cases hempty : rest.isEmpty
  · rw [if_pos hempty] at hl
    by_cases ht : t' = t
    · subst ht
      simp at hl
    · rw [OrdMap.find?_erase_ne _ ht] at hl
      exact hwf t' l hl
  · rw [if_neg hempty, OrdMap.find?_insert] at hl
    by_cases ht : t' = t
    · rw [if_pos ht, Option.some.injEq] at hl
      subst hl
      exact ⟨fun hnil => by simp [hnil] at hempty, hsub.nodup (hwf t ips hfind).2⟩
    · rw [if_neg ht] at hl
      exact hwf t' l hl

theorem remove_of_holds (hwf : o.WellFormed) (h : o.Holds ip t) :
    ∃ o', o.remove ip t = .ok o' ∧ (∀ x t', o'.Holds x t' ↔ o.Holds x t' ∧ ¬ (x = ip ∧ t' = t)) ∧
      o'.WellFormed := by
  obtain ⟨ips, hfind, _⟩ := find?_of_holds h
  have hrest : ∀ y, y ∈ ips.filter (· != ip) ↔ y ∈ ips ∧ y ≠ ip := fun y => by simp
  refine ⟨_, ?_, fun x t' => holds_shrink hfind hrest,
    wellFormed_shrink hwf hfind List.filter_sublist⟩
  simp only [remove, hfind, unwrap_some, ok_bind]
  split_ifs <;> rfl

theorem pop_of_first?_none (h : o.byDate.first? = none) : o.pop = .ok (none, o) := by
  simp [pop, h]

theorem pop_of_first? (hwf : o.WellFormed) {ips : List Ipv6Addr}
    (hfirst : o.byDate.first? = some (t, ips)) :
    ∃ ip o', o.pop = .ok (some ip, o') ∧ o.Holds ip t ∧ (∀ x t', o.Holds x t' → t ≤ t') ∧
      (∀ x t', o'.Holds x t' ↔ o.Holds x t' ∧ ¬ (x = ip ∧ t' = t)) ∧ o'.WellFormed := by
  have hfind := OrdMap.find?_of_first? hfirst
  obtain ⟨hne, hnodup⟩ := hwf t ips hfind
  obtain ⟨ip, hlast⟩ := Option.isSome_iff_exists.mp (List.getLast?_isSome.mpr hne)
  have hrest : ∀ y, y ∈ ips.dropLast ↔ y ∈ ips ∧ y ≠ ip := fun y =>
    mem_dropLast_iff_of_nodup hnodup hlast
  refine ⟨ip, _, ?_, ?_, fun x t' hx => ?_, fun x t' => holds_shrink hfind hrest,
    wellFormed_shrink hwf hfind (List.dropLast_sublist ips)⟩
  · simp only [pop, hfirst, hlast, unwrap_some, ok_bind]
    split_ifs <;> rfl
  · simpa [Holds, hfind] using List.mem_of_getLast? hlast
  · obtain ⟨l, hl, _⟩ := find?_of_holds hx
    exact OrdMap.le_of_first? hfirst hl

end PeersOrderedByExclusionDate

/-! ## A peer's exclusion -/

namespace Peer

/-- The factor `exclusion_duration_factor` stands for, without its 32-bit arithmetic. -/
def factorOf (score : Nat) : Nat := if score ≤ scoreLimit then 1 else score * 2

variable {p : Peer} {now : Timestamp}

theorem exclusionDurationFactor_of_lt {score : Nat} (h : score < 2 ^ 31) :
    exclusionDurationFactor score = factorOf score := by
  unfold exclusionDurationFactor factorOf
  split_ifs
  · rfl
  · rw [Nat.mod_eq_of_lt (by omega), Nat.mod_eq_of_lt (by omega)]

theorem exclusionDurationFactor_two_pow : exclusionDurationFactor (2 ^ 31) = 0 := by
  unfold exclusionDurationFactor
  rw [if_neg (by decide)]
  decide

@[simp] theorem factorOf_one : factorOf 1 = 1 := rfl

theorem factorOf_le_succ {score : Nat} (h : 1 ≤ score) : factorOf score ≤ factorOf (score + 1) := by
  unfold factorOf scoreLimit
  split_ifs <;> omega

/-- The peer a report leaves when the score does not overflow. -/
def reported (p : Peer) (now : Timestamp) : Peer :=
  { p with
    excludeUntil := now + excludeTime * factorOf (p.score + 1)
    score := p.score + 1 }

theorem misbehaved_of_lt (h : p.score + 1 < 2 ^ 31) : p.misbehaved now = p.reported now := by
  have hwrap : (p.score + 1) % 2 ^ 64 = p.score + 1 := Nat.mod_eq_of_lt (by omega)
  simp only [misbehaved, exclusionEnd, hwrap, exclusionDurationFactor_of_lt h]
  rfl

theorem misbehaved_of_two_pow (h : p.score + 1 = 2 ^ 31) :
    p.misbehaved now = { p with excludeUntil := now, score := 2 ^ 31 } := by
  have hwrap : (p.score + 1) % 2 ^ 64 = 2 ^ 31 := by rw [h]; decide
  simp only [misbehaved, exclusionEnd, hwrap, exclusionDurationFactor_two_pow, Int.natCast_zero,
    Int.mul_zero, Int.add_zero]

end Peer

/-! ## The two indexes agree -/

namespace PeerExclusion

variable (pe : PeerExclusion)

/-- The two indexes agree: each tracked peer sits under its own IP and is listed in the date
index under its exclusion end, and nothing else is listed there; the tracked IPs are at most
`max(max_size, 2)`. -/
structure Inv : Prop where
  address_ip : ∀ ip p, pe.byIp.lookup ip = some p → p.address.ip = ip
  indexed : ∀ ip t, pe.orderedByDate.Holds ip t ↔
    ∃ p, pe.byIp.lookup ip = some p ∧ p.excludeUntil = t
  wellFormed : pe.orderedByDate.WellFormed
  size_le : pe.byIp.keys.length ≤ max pe.maxSize 2

/-- Every peer that went had an exclusion end no later than any peer that stayed. -/
def EvictsEarliest (byIp byIp' : Table Ipv6Addr Peer) : Prop :=
  ∀ ip p, byIp.lookup ip = some p → byIp'.lookup ip = none →
    ∀ ip' q, byIp'.lookup ip' = some q → p.excludeUntil ≤ q.excludeUntil

def Shrinks (byIp' byIp : Table Ipv6Addr Peer) : Prop :=
  ∀ ip p, byIp'.lookup ip = some p → byIp.lookup ip = some p

variable {pe} {ip : Ipv6Addr} {peer : Peer}

theorem withMaxSize_inv (maxSize : Nat) : (withMaxSize maxSize).Inv :=
  ⟨fun _ _ h => by simp [withMaxSize] at h,
    fun _ _ => by simp [withMaxSize, PeersOrderedByExclusionDate.not_holds_new],
    PeersOrderedByExclusionDate.new_wellFormed, by simp [withMaxSize]⟩

theorem length_keys_insert_of_none {t : Table Ipv6Addr Peer} (h : t.lookup ip = none) (v : Peer) :
    (t.insert ip v).keys.length = t.keys.length + 1 := by
  have hnotin : ip ∉ t.keys := fun hmem => AList.lookup_eq_none.mp h (AList.mem_keys.mp hmem)
  rw [AList.keys_insert, List.length_cons, List.erase_of_not_mem hnotin]

theorem length_keys_insert_of_some {t : Table Ipv6Addr Peer} {v v' : Peer}
    (h : t.lookup ip = some v) : (t.insert ip v').keys.length = t.keys.length := by
  have hmem : ip ∈ t.keys := AList.mem_keys.mpr (AList.lookup_isSome.mp (by simp [h]))
  have hpos := List.length_pos_of_mem hmem
  rw [AList.keys_insert, List.length_cons, List.length_erase_of_mem hmem]
  omega

theorem length_keys_erase_of_some {t : Table Ipv6Addr Peer} {v : Peer}
    (h : t.lookup ip = some v) : (t.erase ip).keys.length + 1 = t.keys.length := by
  have hmem : ip ∈ t.keys := AList.mem_keys.mpr (AList.lookup_isSome.mp (by simp [h]))
  have hpos := List.length_pos_of_mem hmem
  rw [AList.keys_erase, List.length_erase_of_mem hmem]
  omega

theorem Inv.not_holds_of_none (hinv : pe.Inv) (h : pe.byIp.lookup ip = none) (t : Timestamp) :
    ¬ pe.orderedByDate.Holds ip t := fun hholds => by
  obtain ⟨p, hp, _⟩ := (hinv.indexed ip t).mp hholds
  rw [h] at hp
  cases hp

theorem Inv.holds_of_some (hinv : pe.Inv) {p : Peer} (h : pe.byIp.lookup ip = some p) :
    pe.orderedByDate.Holds ip p.excludeUntil :=
  (hinv.indexed ip _).mpr ⟨p, h, rfl⟩

theorem insert_inv (hinv : pe.Inv) (hnew : pe.byIp.lookup peer.address.ip = none)
    (hroom : pe.byIp.keys.length + 1 ≤ max pe.maxSize 2) : (pe.insert peer).Inv := by
  refine ⟨fun x p hp => ?_, fun x t => ?_, ?_, ?_⟩
  · by_cases hx : x = peer.address.ip
    · subst hx
      simp only [insert, AList.lookup_insert, Option.some.injEq] at hp
      rw [← hp]
    · simp only [insert, AList.lookup_insert_ne hx] at hp
      exact hinv.address_ip x p hp
  · simp only [insert, PeersOrderedByExclusionDate.holds_insert, hinv.indexed]
    by_cases hx : x = peer.address.ip
    · subst hx
      simp [hnew, eq_comm]
    · simp [AList.lookup_insert_ne hx, hx]
  · exact PeersOrderedByExclusionDate.insert_wellFormed hinv.wellFormed
      (hinv.not_holds_of_none hnew _)
  · show (pe.byIp.insert peer.address.ip peer).keys.length ≤ max pe.maxSize 2
    rw [length_keys_insert_of_none hnew]
    exact hroom

theorem erase_inv (hinv : pe.Inv) {o' : PeersOrderedByExclusionDate} {p : Peer}
    (hp : pe.byIp.lookup ip = some p)
    (ho' : ∀ x t, o'.Holds x t ↔ pe.orderedByDate.Holds x t ∧ ¬ (x = ip ∧ t = p.excludeUntil))
    (hwf : o'.WellFormed) :
    ({ pe with orderedByDate := o', byIp := pe.byIp.erase ip } : PeerExclusion).Inv := by
  refine ⟨fun x q hq => ?_, fun x t => ?_, hwf, ?_⟩
  · by_cases hx : x = ip
    · subst hx
      simp at hq
    · rw [AList.lookup_erase_ne hx] at hq
      exact hinv.address_ip x q hq
  · show o'.Holds x t ↔ ∃ q, (pe.byIp.erase ip).lookup x = some q ∧ q.excludeUntil = t
    rw [ho', hinv.indexed]
    by_cases hx : x = ip
    · subst hx
      simp only [hp, Option.some.injEq, exists_eq_left', AList.lookup_erase, reduceCtorEq,
        false_and, exists_false, iff_false, true_and, not_and, not_not]
      exact fun h => h.symm
    · simp [AList.lookup_erase_ne hx, hx]
  · show (pe.byIp.erase ip).keys.length ≤ max pe.maxSize 2
    have hlen := length_keys_erase_of_some hp
    have hle := hinv.size_le
    omega

theorem Shrinks.refl (t : Table Ipv6Addr Peer) : Shrinks t t := fun _ _ h => h

theorem Shrinks.trans {t₁ t₂ t₃ : Table Ipv6Addr Peer} (h₁₂ : Shrinks t₁ t₂) (h₂₃ : Shrinks t₂ t₃) :
    Shrinks t₁ t₃ := fun ip p h => h₂₃ ip p (h₁₂ ip p h)

theorem shrinks_erase (t : Table Ipv6Addr Peer) (ip : Ipv6Addr) : Shrinks (t.erase ip) t := by
  intro x p hp
  by_cases hx : x = ip
  · subst hx
    simp at hp
  · rwa [AList.lookup_erase_ne hx] at hp

theorem evictsEarliest_refl (t : Table Ipv6Addr Peer) : EvictsEarliest t t := by
  intro ip p hp hnone
  rw [hp] at hnone
  cases hnone

theorem cleanLoop_spec (fuel : Nat) : ∀ pe : PeerExclusion, pe.Inv →
    pe.byIp.keys.length ≤ fuel + 1 →
    ∃ pe', cleanLoop fuel pe = .ok pe' ∧ pe'.Inv ∧
      (pe'.byIp.keys.length ≤ 1 ∨ pe'.byIp.keys.length < pe'.maxSize) ∧
      pe'.maxSize = pe.maxSize ∧ pe'.permaBans = pe.permaBans ∧
      Shrinks pe'.byIp pe.byIp ∧ EvictsEarliest pe.byIp pe'.byIp := by
  induction fuel with
  | zero =>
    intro pe hinv hlen
    exact ⟨pe, rfl, hinv, .inl hlen, rfl, rfl, .refl _, evictsEarliest_refl _⟩
  | succ fuel ih =>
    intro pe hinv hlen
    by_cases hcond : 1 < pe.byIp.keys.length ∧ pe.maxSize ≤ pe.byIp.keys.length
    · obtain ⟨ip₀, hip₀⟩ := List.exists_mem_of_length_pos (Nat.lt_of_succ_lt hcond.1)
      obtain ⟨p₀, hp₀⟩ := Option.isSome_iff_exists.mp
        (AList.lookup_isSome.mpr (AList.mem_keys.mp hip₀))
      obtain ⟨ips₀, hfind₀, _⟩ :=
        PeersOrderedByExclusionDate.find?_of_holds (hinv.holds_of_some hp₀)
      obtain ⟨⟨t, ips⟩, hfirst⟩ := Option.isSome_iff_exists.mp
        (OrdMap.first?_isSome_of_find? hfind₀)
      obtain ⟨ip, o', hpop, hholds, hmin, ho', hwf⟩ :=
        PeersOrderedByExclusionDate.pop_of_first? hinv.wellFormed hfirst
      obtain ⟨p, hp, rfl⟩ := (hinv.indexed ip t).mp hholds
      have hinv₁ := erase_inv hinv hp ho' hwf
      have hlen₁ := length_keys_erase_of_some hp
      obtain ⟨pe', hloop, hinv', hsize, hmax, hbans, hshrinks, hevicts⟩ :=
        ih _ hinv₁ (by show (pe.byIp.erase ip).keys.length ≤ fuel + 1; omega)
      refine ⟨pe', ?_, hinv', hsize, hmax, hbans, hshrinks.trans (shrinks_erase _ _), ?_⟩
      · simp only [cleanLoop, if_pos hcond, hpop, ok_bind, unwrap_some]
        exact hloop
      · intro x q hq hgone y r hr
        by_cases hx : x = ip
        · subst hx
          rw [hp, Option.some.injEq] at hq
          subst hq
          have hr' := shrinks_erase _ _ y r (hshrinks y r hr)
          exact hmin y r.excludeUntil (hinv.holds_of_some hr')
        · exact hevicts x q (by rw [← hq]; exact AList.lookup_erase_ne hx) hgone y r hr
    · refine ⟨pe, ?_, hinv, ?_, rfl, rfl, .refl _, evictsEarliest_refl _⟩
      · simp only [cleanLoop, if_neg hcond]
        rfl
      · omega

theorem cleanOldPeers_spec (hinv : pe.Inv) :
    ∃ pe', pe.cleanOldPeers = .ok pe' ∧ pe'.Inv ∧
      (pe'.byIp.keys.length ≤ 1 ∨ pe'.byIp.keys.length < pe'.maxSize) ∧
      pe'.maxSize = pe.maxSize ∧ pe'.permaBans = pe.permaBans ∧
      Shrinks pe'.byIp pe.byIp ∧ EvictsEarliest pe.byIp pe'.byIp :=
  cleanLoop_spec _ pe hinv (Nat.le_succ _)

theorem replace_inv (hinv : pe.Inv) {o' : PeersOrderedByExclusionDate} {p q : Peer}
    (hp : pe.byIp.lookup ip = some p) (haddr : q.address = p.address)
    (ho' : ∀ x t, o'.Holds x t ↔ (pe.orderedByDate.Holds x t ∧ ¬ (x = ip ∧ t = p.excludeUntil)) ∨
      (x = ip ∧ t = q.excludeUntil))
    (hwf : o'.WellFormed) :
    ({ pe with orderedByDate := o', byIp := pe.byIp.insert ip q } : PeerExclusion).Inv := by
  refine ⟨fun x r hr => ?_, fun x t => ?_, hwf, ?_⟩
  · by_cases hx : x = ip
    · subst hx
      simp only [AList.lookup_insert, Option.some.injEq] at hr
      rw [← hr, haddr]
      exact hinv.address_ip x p hp
    · rw [AList.lookup_insert_ne hx] at hr
      exact hinv.address_ip x r hr
  · show o'.Holds x t ↔ ∃ r, (pe.byIp.insert ip q).lookup x = some r ∧ r.excludeUntil = t
    rw [ho', hinv.indexed]
    by_cases hx : x = ip
    · subst hx
      simp only [hp, AList.lookup_insert, Option.some.injEq, exists_eq_left', true_and]
      constructor
      · rintro (⟨h, hne⟩ | h)
        · exact absurd h.symm hne
        · exact h.symm
      · exact fun h => .inr h.symm
    · simp [AList.lookup_insert_ne hx, hx]
  · show (pe.byIp.insert ip q).keys.length ≤ max pe.maxSize 2
    rw [length_keys_insert_of_some hp]
    exact hinv.size_le

variable {endpoint : SocketAddrV6} {now : Timestamp} {p : Peer}

theorem peerMisbehaved_tracked (now : Timestamp) (hinv : pe.Inv)
    (hp : pe.byIp.lookup endpoint.ip = some p) :
    ∃ pe', pe.peerMisbehaved endpoint now = .ok ((p.misbehaved now).score, pe') ∧ pe'.Inv ∧
      pe'.byIp = pe.byIp.insert endpoint.ip (p.misbehaved now) ∧
      pe'.maxSize = pe.maxSize ∧ pe'.permaBans = pe.permaBans := by
  have haddr : (p.misbehaved now).address.ip = endpoint.ip := hinv.address_ip endpoint.ip p hp
  have hholds := hinv.holds_of_some hp
  simp only [peerMisbehaved, hp]
  by_cases hend : (p.misbehaved now).excludeUntil = p.excludeUntil
  · refine ⟨_, by rw [if_neg (not_not.mpr hend)]; rfl,
      replace_inv (q := p.misbehaved now) hinv hp rfl (fun x t => ?_) hinv.wellFormed, rfl, rfl,
      rfl⟩
    rw [hend]
    by_cases hx : x = endpoint.ip
    · subst hx
      rw [hinv.indexed]
      simp [hp, eq_comm]
    · simp [hx]
  · obtain ⟨o₁, hremove, ho₁, hwf₁⟩ :=
      PeersOrderedByExclusionDate.remove_of_holds hinv.wellFormed hholds
    have hfresh : ¬ o₁.Holds endpoint.ip (p.misbehaved now).excludeUntil := fun h => by
      obtain ⟨hold, hne⟩ := (ho₁ _ _).mp h
      obtain ⟨q, hq, hqend⟩ := (hinv.indexed _ _).mp hold
      rw [hp, Option.some.injEq] at hq
      subst hq
      exact hne ⟨rfl, hqend.symm⟩
    refine ⟨_, ?_, replace_inv (q := p.misbehaved now) hinv hp rfl (fun x t => ?_)
      (PeersOrderedByExclusionDate.insert_wellFormed hwf₁ hfresh), rfl, rfl, rfl⟩
    · rw [if_pos hend, PeersOrderedByExclusionDate.updateExclusionEnd, haddr, hremove, ok_bind]
      rfl
    · rw [PeersOrderedByExclusionDate.holds_insert, ho₁]

theorem peerMisbehaved_of_tracked (now : Timestamp) (hinv : pe.Inv)
    (hp : pe.byIp.lookup endpoint.ip = some p) (hs : p.score + 1 < 2 ^ 31) :
    ∃ pe', pe.peerMisbehaved endpoint now = .ok (p.score + 1, pe') ∧ pe'.Inv ∧
      pe'.byIp = pe.byIp.insert endpoint.ip (p.reported now) ∧
      pe'.maxSize = pe.maxSize ∧ pe'.permaBans = pe.permaBans := by
  obtain ⟨pe', hmis, hinv', hbyIp, hmax, hbans⟩ := peerMisbehaved_tracked now hinv hp
  rw [Peer.misbehaved_of_lt hs] at hmis hbyIp
  exact ⟨pe', hmis, hinv', hbyIp, hmax, hbans⟩

theorem peerMisbehaved_of_tracked_overflow (now : Timestamp) (hinv : pe.Inv)
    (hp : pe.byIp.lookup endpoint.ip = some p) (hs : p.score + 1 = 2 ^ 31) :
    ∃ pe', pe.peerMisbehaved endpoint now = .ok (2 ^ 31, pe') ∧ pe'.Inv ∧
      pe'.byIp = pe.byIp.insert endpoint.ip { p with excludeUntil := now, score := 2 ^ 31 } ∧
      pe'.maxSize = pe.maxSize ∧ pe'.permaBans = pe.permaBans := by
  obtain ⟨pe', hmis, hinv', hbyIp, hmax, hbans⟩ := peerMisbehaved_tracked now hinv hp
  rw [Peer.misbehaved_of_two_pow hs] at hmis hbyIp
  exact ⟨pe', hmis, hinv', hbyIp, hmax, hbans⟩

theorem peerMisbehaved_of_untracked (now : Timestamp) (hinv : pe.Inv)
    (hnone : pe.byIp.lookup endpoint.ip = none) :
    ∃ pe₁ pe', pe.cleanOldPeers = .ok pe₁ ∧ pe.peerMisbehaved endpoint now = .ok (1, pe') ∧
      pe'.Inv ∧ pe' = pe₁.insert (Peer.new endpoint now) ∧ Shrinks pe₁.byIp pe.byIp ∧
      EvictsEarliest pe.byIp pe₁.byIp ∧ pe₁.maxSize = pe.maxSize ∧ pe₁.permaBans = pe.permaBans := by
  obtain ⟨pe₁, hclean, hinv₁, hsize, hmax, hbans, hshrinks, hevicts⟩ := cleanOldPeers_spec hinv
  have hnone₁ : pe₁.byIp.lookup endpoint.ip = none := by
    cases h : pe₁.byIp.lookup endpoint.ip with
    | none => rfl
    | some q => rw [hshrinks _ _ h] at hnone; cases hnone
  refine ⟨pe₁, _, hclean, ?_, insert_inv hinv₁ hnone₁ (by omega), rfl, hshrinks, hevicts,
    hmax, hbans⟩
  simp only [peerMisbehaved, hnone, hclean, ok_bind]
  rfl

theorem remove_of_tracked (hinv : pe.Inv) (hp : pe.byIp.lookup endpoint.ip = some p) :
    ∃ pe', pe.remove endpoint = .ok pe' ∧ pe'.Inv ∧ pe'.byIp = pe.byIp.erase endpoint.ip ∧
      pe'.maxSize = pe.maxSize ∧ pe'.permaBans = pe.permaBans := by
  have haddr := hinv.address_ip _ _ hp
  obtain ⟨o', hremove, ho', hwf⟩ :=
    PeersOrderedByExclusionDate.remove_of_holds hinv.wellFormed (hinv.holds_of_some hp)
  refine ⟨_, ?_, erase_inv hinv hp ho' hwf, rfl, rfl, rfl⟩
  simp only [remove, hp, haddr, hremove, ok_bind]
  rfl

theorem isExcluded_spec (hinv : pe.Inv) (peerAddr : SocketAddrV6) (now : Timestamp) :
    ∃ b pe', pe.isExcluded peerAddr now = .ok (b, pe') ∧
      (b = true ↔ peerAddr ∈ pe.permaBans ∨
        ∃ p, pe.byIp.lookup peerAddr.ip = some p ∧ 2 ≤ p.score ∧ now < p.excludeUntil) ∧
      pe'.Inv ∧ Shrinks pe'.byIp pe.byIp ∧ pe'.maxSize = pe.maxSize ∧
      pe'.permaBans = pe.permaBans := by
  by_cases hban : peerAddr ∈ pe.permaBans
  · exact ⟨true, pe, by simp [isExcluded, hban], by simp [hban], hinv, .refl _, rfl, rfl⟩
  cases hp : pe.byIp.lookup peerAddr.ip with
  | none =>
    exact ⟨false, pe, by simp [isExcluded, hban, hp], by simp [hban], hinv, .refl _, rfl, rfl⟩
  | some p =>
    have hanswer : p.isExcluded now = true ↔ peerAddr ∈ pe.permaBans ∨
        ∃ q, some p = some q ∧ 2 ≤ q.score ∧ now < q.excludeUntil := by
      simp [Peer.isExcluded, Peer.scoreLimit, hban]
    by_cases hexp : p.hasExpired now = true
    · have haddr := hinv.address_ip _ _ hp
      obtain ⟨pe', hremove, hinv', hbyIp, hmax, hbans⟩ :=
        remove_of_tracked hinv
          (show pe.byIp.lookup p.address.ip = some p by rw [haddr]; exact hp)
      refine ⟨p.isExcluded now, pe', ?_, hanswer, hinv', ?_, hmax, hbans⟩
      · simp [isExcluded, hban, hp, hexp, hremove]
      · rw [hbyIp]
        exact shrinks_erase _ _
    · refine ⟨p.isExcluded now, pe, ?_, hanswer, hinv, .refl _, rfl, rfl⟩
      simp [isExcluded, hban, hp, hexp]

theorem permaBan_inv (hinv : pe.Inv) (peerAddr : SocketAddrV6) : (pe.permaBan peerAddr).Inv :=
  ⟨hinv.address_ip, hinv.indexed, hinv.wellFormed, hinv.size_le⟩

/-! ## Runs -/

def Call.time? : Call → Option Timestamp
  | .peerMisbehaved _ now | .isExcluded _ now => some now
  | .permaBan _ => none

def Call.reportedIp? : Call → Option Ipv6Addr
  | .peerMisbehaved endpoint _ => some endpoint.ip
  | _ => none

def reports (calls : List Call) (ip : Ipv6Addr) : Nat :=
  calls.countP fun call => call.reportedIp? == some ip

/-- What each tracked peer owes to the calls so far: its exclusion end was set, at a time no
later than `clock`, from its score, and its score, at least one, is at most the reports of its
IP. -/
def Track (pe : PeerExclusion) (clock : Timestamp) (reported : Ipv6Addr → Nat) : Prop :=
  ∀ ip p, pe.byIp.lookup ip = some p →
    (∃ t₀ ≤ clock, p.excludeUntil = t₀ + Peer.excludeTime * Peer.factorOf p.score) ∧
      1 ≤ p.score ∧ p.score ≤ reported ip

theorem reports_append_singleton (done : List Call) (call : Call) (ip : Ipv6Addr) :
    reports (done ++ [call]) ip = reports done ip + if call.reportedIp? = some ip then 1 else 0 := by
  simp only [reports, List.countP_append, List.countP_singleton, beq_iff_eq]

theorem reports_le_append_singleton (done : List Call) (call : Call) (ip : Ipv6Addr) :
    reports done ip ≤ reports (done ++ [call]) ip := by
  rw [reports_append_singleton]
  exact Nat.le_add_right _ _

theorem withMaxSize_track (maxSize : Nat) (clock : Timestamp) (reported : Ipv6Addr → Nat) :
    (withMaxSize maxSize).Track clock reported := fun _ _ h => by simp [withMaxSize] at h

variable {clock : Timestamp} {reported : Ipv6Addr → Nat}

theorem Track.of_shrinks {pe' : PeerExclusion} (htrack : pe.Track clock reported)
    (hshrinks : Shrinks pe'.byIp pe.byIp) : pe'.Track clock reported :=
  fun ip p hp => htrack ip p (hshrinks ip p hp)

theorem Track.mono {clock' : Timestamp} {reported' : Ipv6Addr → Nat}
    (htrack : pe.Track clock reported) (hclock : clock ≤ clock')
    (hreported : ∀ ip, reported ip ≤ reported' ip) : pe.Track clock' reported' := by
  intro ip p hp
  obtain ⟨⟨t₀, ht₀, hend⟩, hpos, hle⟩ := htrack ip p hp
  exact ⟨⟨t₀, Int.le_trans ht₀ hclock, hend⟩, hpos, Nat.le_trans hle (hreported ip)⟩

theorem Track.excludeUntil_le_reported (htrack : pe.Track clock reported)
    (hp : pe.byIp.lookup ip = some p) (hnow : clock ≤ now) :
    p.excludeUntil ≤ (p.reported now).excludeUntil := by
  obtain ⟨⟨t₀, ht₀, hend⟩, hpos, _⟩ := htrack ip p hp
  have hfactor := Int.ofNat_le.mpr (Peer.factorOf_le_succ hpos)
  have hmul : (Peer.excludeTime : Int) * Peer.factorOf p.score ≤
      (Peer.excludeTime : Int) * Peer.factorOf (p.score + 1) :=
    Int.mul_le_mul_of_nonneg_left hfactor (Int.natCast_nonneg _)
  rw [hend]
  exact Int.add_le_add (Int.le_trans ht₀ hnow) hmul

theorem Track.insert_now {pe' : PeerExclusion} {reported' : Ipv6Addr → Nat} {now : Timestamp}
    (htrack : pe.Track clock reported) (hnow : clock ≤ now)
    (hreported : ∀ ip, reported ip ≤ reported' ip) {ip : Ipv6Addr} {q : Peer}
    (hbyIp : pe'.byIp = pe.byIp.insert ip q)
    (hend : q.excludeUntil = now + Peer.excludeTime * Peer.factorOf q.score) (hpos : 1 ≤ q.score)
    (hle : q.score ≤ reported' ip) : pe'.Track now reported' := by
  intro x r hr
  rw [hbyIp] at hr
  by_cases hx : x = ip
  · subst hx
    rw [AList.lookup_insert, Option.some.injEq] at hr
    subst hr
    exact ⟨⟨now, Int.le_refl now, hend⟩, hpos, hle⟩
  · rw [AList.lookup_insert_ne hx] at hr
    exact (htrack.mono hnow hreported) x r hr

theorem apply_spec (hinv : pe.Inv) {done : List Call} (htrack : pe.Track clock (reports done))
    (call : Call) (htime : ∀ t, call.time? = some t → clock ≤ t)
    (hcount : ∀ ip, reports (done ++ [call]) ip < 2 ^ 31) :
    ∃ pe', call.apply pe = .ok pe' ∧ pe'.Inv ∧
      pe'.Track (call.time?.getD clock) (reports (done ++ [call])) := by
  have hmono := reports_le_append_singleton done call
  cases call with
  | peerMisbehaved endpoint now =>
    have hnow : clock ≤ now := htime now rfl
    have hcount' : reports (done ++ [.peerMisbehaved endpoint now]) endpoint.ip =
        reports done endpoint.ip + 1 := by
      simp [reports_append_singleton, Call.reportedIp?]
    cases hp : pe.byIp.lookup endpoint.ip with
    | some p =>
      have hscore := (htrack _ _ hp).2.2
      have hbound := hcount endpoint.ip
      obtain ⟨pe', hmis, hinv', hbyIp, _, _⟩ :=
        peerMisbehaved_of_tracked now hinv hp (by omega)
      exact ⟨pe', by simp [Call.apply, hmis], hinv',
        htrack.insert_now hnow hmono hbyIp rfl (Nat.le_add_left 1 _)
          (show p.score + 1 ≤ _ by omega)⟩
    | none =>
      obtain ⟨pe₁, pe', _, hmis, hinv', rfl, hshrinks, _, _, _⟩ :=
        peerMisbehaved_of_untracked now hinv hp
      exact ⟨_, by simp [Call.apply, hmis], hinv',
        (htrack.of_shrinks hshrinks).insert_now hnow hmono rfl (by simp [Peer.new, Call.time?])
          (Nat.le_refl 1) (show 1 ≤ reports _ endpoint.ip by omega)⟩
  | isExcluded peerAddr now =>
    obtain ⟨b, pe', hexcl, _, hinv', hshrinks, _, _⟩ := isExcluded_spec hinv peerAddr now
    exact ⟨pe', by simp [Call.apply, hexcl], hinv',
      (htrack.of_shrinks hshrinks).mono (htime now rfl) hmono⟩
  | permaBan peerAddr =>
    exact ⟨_, rfl, permaBan_inv hinv peerAddr, htrack.mono (Int.le_refl _) hmono⟩

theorem run_append (pe : PeerExclusion) (calls calls' : List Call) :
    run pe (calls ++ calls') = run pe calls >>= fun pe => run pe calls' := by
  simp only [run, List.foldlM_append]

/-- A run of calls at non-decreasing times, no sooner than the clock, with fewer than `2 ^ 31`
reports of each IP: it succeeds, and keeps both invariants up to any clock at or after its
times. -/
theorem run_spec (calls : List Call) : ∀ (pe : PeerExclusion) (done : List Call) (clock : Timestamp),
    pe.Inv → pe.Track clock (reports done) → (∀ t ∈ calls.filterMap Call.time?, clock ≤ t) →
    (calls.filterMap Call.time?).Pairwise (· ≤ ·) → (∀ ip, reports (done ++ calls) ip < 2 ^ 31) →
    ∃ pe', run pe calls = .ok pe' ∧ pe'.Inv ∧
      ∀ clock', clock ≤ clock' → (∀ t ∈ calls.filterMap Call.time?, t ≤ clock') →
        pe'.Track clock' (reports (done ++ calls)) := by
  induction calls with
  | nil =>
    intro pe done clock hinv htrack _ _ _
    exact ⟨pe, rfl, hinv, fun clock' hclock _ => by
      simpa using htrack.mono hclock (fun _ => Nat.le_refl _)⟩
  | cons call calls ih =>
    intro pe done clock hinv htrack hafter hsorted hcount
    have htimes : ∀ t, call.time? = some t → clock ≤ t := fun t ht =>
      hafter t (by simp [ht])
    have hcount₁ : ∀ ip, reports (done ++ [call]) ip < 2 ^ 31 := fun ip => by
      have hle : reports (done ++ [call]) ip ≤ reports (done ++ call :: calls) ip := by
        simp only [reports, List.countP_append, List.countP_cons, List.countP_nil]
        omega
      exact Nat.lt_of_le_of_lt hle (hcount ip)
    obtain ⟨pe₁, happly, hinv₁, htrack₁⟩ := apply_spec hinv htrack call htimes hcount₁
    have hrest : (∀ t ∈ calls.filterMap Call.time?, call.time?.getD clock ≤ t) ∧
        (calls.filterMap Call.time?).Pairwise (· ≤ ·) := by
      cases hcall : call.time? with
      | none =>
        simp only [List.filterMap_cons, hcall] at hafter hsorted
        exact ⟨hafter, hsorted⟩
      | some t =>
        simp only [List.filterMap_cons, hcall, List.pairwise_cons] at hafter hsorted
        exact ⟨hsorted.1, hsorted.2⟩
    obtain ⟨pe', hrun, hinv', htrack'⟩ := ih pe₁ (done ++ [call]) _ hinv₁ htrack₁ hrest.1 hrest.2
      (by simpa using hcount)
    refine ⟨pe', ?_, hinv', fun clock' hclock hbefore => ?_⟩
    · rw [show call :: calls = [call] ++ calls from rfl, run_append]
      simp only [run, List.foldlM_cons, List.foldlM_nil, happly, bind_pure, ok_bind]
      exact hrun
    · have hclock₁ : call.time?.getD clock ≤ clock' := by
        cases hcall : call.time? with
        | none => exact hclock
        | some t => exact hbefore t (by simp [hcall])
      simpa using htrack' clock' hclock₁ fun t ht => hbefore t (by
        cases hcall : call.time? <;> simp [hcall, ht])

/-- Peer exclusion over a run. For calls at non-decreasing times in which no IP is reported
`2 ^ 31` times, every call from `with_max_size(max_size)` succeeds, the two indexes listing the
same IPs, each under its peer's exclusion end, with at most `max(max_size, 2)` IPs tracked. In
every state where the indexes agree: a report for an untracked IP evicts only peers whose
exclusion ends come first and tracks the IP; a further report for a tracked IP, no sooner than
the clock, raises its score by one and does not move its end earlier, until the score reaches
`2 ^ 31`, where `score as u32 * 2` wraps to `0` and the end moves back to `now`; and
`is_excluded` never fails and answers whether the endpoint is perma-banned or its IP's peer has
score at least two and an end after `now`. -/
theorem peer_exclusion_keeps_indexes (maxSize : Nat) (calls : List Call)
    (htimes : (calls.filterMap Call.time?).Pairwise (· ≤ ·))
    (hreports : ∀ ip, reports calls ip < 2 ^ 31) :
    (∃ pe, run (withMaxSize maxSize) calls = .ok pe ∧ pe.Inv ∧
      ∀ clock, (∀ t ∈ calls.filterMap Call.time?, t ≤ clock) → pe.Track clock (reports calls)) ∧
    ∀ pe : PeerExclusion, pe.Inv → ∀ (endpoint : SocketAddrV6) (now : Timestamp),
      (pe.byIp.lookup endpoint.ip = none →
        ∃ pe₁ pe', pe.cleanOldPeers = .ok pe₁ ∧ pe.peerMisbehaved endpoint now = .ok (1, pe') ∧
          pe'.Inv ∧ EvictsEarliest pe.byIp pe₁.byIp ∧
          pe'.byIp.lookup endpoint.ip = some (Peer.new endpoint now)) ∧
      (∀ p clock reported, pe.byIp.lookup endpoint.ip = some p → pe.Track clock reported →
        clock ≤ now →
        (p.score + 1 < 2 ^ 31 →
          ∃ pe', pe.peerMisbehaved endpoint now = .ok (p.score + 1, pe') ∧ pe'.Inv ∧
            pe'.byIp.lookup endpoint.ip = some (p.reported now) ∧
            p.excludeUntil ≤ (p.reported now).excludeUntil) ∧
        (p.score + 1 = 2 ^ 31 →
          ∃ pe', pe.peerMisbehaved endpoint now = .ok (2 ^ 31, pe') ∧ pe'.Inv ∧
            pe'.byIp.lookup endpoint.ip = some { p with excludeUntil := now, score := 2 ^ 31 })) ∧
      ∃ b pe', pe.isExcluded endpoint now = .ok (b, pe') ∧
        (b = true ↔ endpoint ∈ pe.permaBans ∨
          ∃ p, pe.byIp.lookup endpoint.ip = some p ∧ 2 ≤ p.score ∧ now < p.excludeUntil) ∧
        pe'.Inv := by
  have hstart : ∃ clock : Timestamp, ∀ t ∈ calls.filterMap Call.time?, clock ≤ t := by
    cases htl : calls.filterMap Call.time? with
    | nil => exact ⟨0, by simp⟩
    | cons a l =>
      rw [htl] at htimes
      refine ⟨a, fun t ht => ?_⟩
      rcases List.mem_cons.mp ht with rfl | ht
      · exact Int.le_refl _
      · exact List.rel_of_pairwise_cons htimes ht
  have hcount : ∀ ip, reports ([] ++ calls) ip < 2 ^ 31 := by simpa using hreports
  refine ⟨?_, fun pe hinv endpoint now => ⟨fun hnone => ?_, fun p clock reported hp htrack hnow =>
    ⟨fun hs => ?_, fun hs => ?_⟩, ?_⟩⟩
  · obtain ⟨c₀, hc₀⟩ := hstart
    obtain ⟨pe, hrun, hinv', _⟩ := run_spec calls _ [] c₀ (withMaxSize_inv maxSize)
      (withMaxSize_track _ _ _) hc₀ htimes hcount
    refine ⟨pe, hrun, hinv', fun clock hclock => ?_⟩
    -- started against an earlier clock, the run is the same and its peers owe that clock
    obtain ⟨pe₂, hrun₂, _, htrack₂⟩ := run_spec calls _ [] (min c₀ clock)
      (withMaxSize_inv maxSize) (withMaxSize_track _ _ _)
      (fun t ht => Int.le_trans (Int.min_le_left _ _) (hc₀ t ht)) htimes hcount
    rw [hrun, Except.ok.injEq] at hrun₂
    subst hrun₂
    simpa using htrack₂ clock (Int.min_le_right _ _) hclock
  · obtain ⟨pe₁, pe', hclean, hmis, hinv', rfl, _, hevicts, _, _⟩ :=
      peerMisbehaved_of_untracked now hinv hnone
    exact ⟨pe₁, _, hclean, hmis, hinv', hevicts, by simp [insert, Peer.new]⟩
  · obtain ⟨pe', hmis, hinv', hbyIp, _, _⟩ := peerMisbehaved_of_tracked now hinv hp hs
    exact ⟨pe', hmis, hinv', by simp [hbyIp], htrack.excludeUntil_le_reported hp hnow⟩
  · obtain ⟨pe', hmis, hinv', hbyIp, _, _⟩ := peerMisbehaved_of_tracked_overflow now hinv hp hs
    exact ⟨pe', hmis, hinv', by simp [hbyIp]⟩
  · obtain ⟨b, pe', hexcl, hb, hinv', _⟩ := isExcluded_spec hinv endpoint now
    exact ⟨b, pe', hexcl, hb, hinv'⟩

theorem run_replicate_reports (maxSize : Nat) (endpoint : SocketAddrV6) (now : Timestamp)
    (n : Nat) (hn : n + 1 < 2 ^ 31) :
    ∃ pe p, run (withMaxSize maxSize) (List.replicate (n + 1) (.peerMisbehaved endpoint now)) =
      .ok pe ∧ pe.Inv ∧ pe.byIp.lookup endpoint.ip = some p ∧ p.score = n + 1 ∧
      p.excludeUntil = now + Peer.excludeTime * Peer.factorOf (n + 1) := by
  induction n with
  | zero =>
    obtain ⟨pe₁, pe', _, hmis, hinv', rfl, _⟩ :=
      peerMisbehaved_of_untracked now (withMaxSize_inv maxSize)
        (show (withMaxSize maxSize).byIp.lookup endpoint.ip = none by simp [withMaxSize])
    exact ⟨_, Peer.new endpoint now, by simp [run, Call.apply, hmis], hinv',
      by simp [insert, Peer.new], rfl, by simp [Peer.new]⟩
  | succ n ih =>
    obtain ⟨pe, p, hrun, hinv, hp, hscore, -⟩ := ih (by omega)
    obtain ⟨pe', hmis, hinv', hbyIp, _⟩ := peerMisbehaved_of_tracked now hinv hp (by omega)
    refine ⟨pe', p.reported now, ?_, hinv', by simp [hbyIp], by simp [Peer.reported, hscore],
      by simp [Peer.reported, hscore]⟩
    rw [List.replicate_succ', run_append, hrun, ok_bind]
    simp [run, Call.apply, hmis]

/-- After `2 ^ 31 - 1` reports of one endpoint at one time its IP is excluded for
`2 ^ 32 - 2` hours; the next report wraps `score as u32 * 2` to `0` and ends the exclusion at
`now`, where `peer_misbehaved` promises a longer one. -/
theorem peer_misbehaved_ends_exclusion_at_two_pow (maxSize : Nat) (endpoint : SocketAddrV6)
    (now : Timestamp) :
    ∃ pe p pe', run (withMaxSize maxSize)
        (List.replicate (2 ^ 31 - 1) (.peerMisbehaved endpoint now)) = .ok pe ∧
      pe.byIp.lookup endpoint.ip = some p ∧ p.score = 2 ^ 31 - 1 ∧
      p.excludeUntil = now + Peer.excludeTime * (2 ^ 32 - 2) ∧
      pe.peerMisbehaved endpoint now = .ok (2 ^ 31, pe') ∧
      pe'.byIp.lookup endpoint.ip = some { p with excludeUntil := now, score := 2 ^ 31 } := by
  obtain ⟨pe, p, hrun, hinv, hp, hscore, hend⟩ :=
    run_replicate_reports maxSize endpoint now (2 ^ 31 - 2) (by decide)
  have hfactor : Peer.factorOf (2 ^ 31 - 2 + 1) = 2 ^ 32 - 2 := by decide
  obtain ⟨pe', hmis, -, hbyIp, -⟩ :=
    peerMisbehaved_of_tracked_overflow now hinv hp (by rw [hscore]; decide)
  exact ⟨pe, p, pe', hrun, hp, hscore, by rw [hend, hfactor]; rfl, hmis, by simp [hbyIp]⟩

end PeerExclusion

end RsbanNode.Transport
