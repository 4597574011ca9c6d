import RsbanNode.Core.Primitives
import RsbanNode.Library.Result

namespace RsbanNode.Transport

open RsbanNode.Primitives RsbanNode.FiniteMap

abbrev Ipv6Addr := FixedBytes 16

/-- `SocketAddrV6`; its equality compares all four fields. -/
structure SocketAddrV6 where
  ip : Ipv6Addr
  port : UInt16
  flowinfo : UInt32
  scopeId : UInt32
deriving DecidableEq

abbrev Cookie := U256

/-- A cookie and when it was handed out (an `Instant`, in milliseconds). -/
structure SynCookieInfo where
  cookie : Cookie
  createdAt : Nat

/-- `now.duration_since(created_at)` saturates at zero. -/
def SynCookieInfo.exceedsCutoff (info : SynCookieInfo) (cutoff now : Nat) : Bool :=
  now - info.createdAt > cutoff

structure LockedSynCookies where
  cookies : Table SocketAddrV6 SynCookieInfo
  cookiesPerIp : Table Ipv6Addr Nat

namespace LockedSynCookies

/-- The count `entry(ip).or_default()` reads. -/
def ipCookies (lock : LockedSynCookies) (ip : Ipv6Addr) : Nat :=
  (lock.cookiesPerIp.lookup ip).getD 0

/-- `dec_cookie_count`; the panic is the error. -/
def decCookieCount (lock : LockedSynCookies) (ip : Ipv6Addr) : Except String LockedSynCookies :=
  if lock.ipCookies ip > 0 then .ok { lock with cookiesPerIp := lock.cookiesPerIp.insert ip (lock.ipCookies ip - 1) }
  else .error "More SYN cookies deleted than created for IP"

/-- Remove the cookie of `endpoint` and count it out of its IP. -/
def removeCookie (lock : LockedSynCookies) (endpoint : SocketAddrV6) :
    Except String LockedSynCookies :=
  ({ lock with cookies := lock.cookies.erase endpoint }).decCookieCount endpoint.ip

end LockedSynCookies

structure SynCookies where
  data : LockedSynCookies
  maxCookiesPerIp : Nat

namespace SynCookies

def new (maxCookiesPerIp : Nat) : SynCookies := ⟨⟨∅, ∅⟩, maxCookiesPerIp⟩

/-- `None` if the IP is rate capped or the endpoint already has a cookie. The random cookie and
the current time are inputs. -/
def assign (self : SynCookies) (endpoint : SocketAddrV6) (cookie : Cookie) (now : Nat) :
    Option Cookie × SynCookies :=
  let lock := self.data
  if endpoint ∈ lock.cookies then (none, self)
  else
    let ipCookies := lock.ipCookies endpoint.ip
    if ipCookies < self.maxCookiesPerIp then
      (some cookie,
        { self with
          data :=
            { cookies := lock.cookies.insert endpoint ⟨cookie, now⟩
              cookiesPerIp := lock.cookiesPerIp.insert endpoint.ip (ipCookies + 1) } })
    else
      -- `or_default` has written the zero count
      (none, { self with
        data := { lock with cookiesPerIp := lock.cookiesPerIp.insert endpoint.ip ipCookies } })

/-- Checks the signature over the stored cookie and consumes the cookie. An endpoint without a
cookie is let through. `PublicKey::verify`'s two errors are one here. -/
def validate (self : SynCookies) (c : Crypto) (endpoint : SocketAddrV6) (nodeId : Account)
    (signature : Signature) : Except String SynCookies :=
  match self.data.cookies.lookup endpoint with
  | some info =>
    if c.verify nodeId info.cookie.bytes signature then
      (fun data => { self with data }) <$> self.data.removeCookie endpoint
    else .error "could not verify message"
  | none => .ok self

/-- The endpoints whose cookies are older than `cutoff`, in the table's order. -/
def removedEndpoints (self : SynCookies) (cutoff now : Nat) : List SocketAddrV6 :=
  (self.data.cookies.entries.filter (fun e => e.2.exceedsCutoff cutoff now)).map (·.1)

def purge (self : SynCookies) (cutoff now : Nat) : Except String SynCookies :=
  (fun data => { self with data }) <$>
    (self.removedEndpoints cutoff now).foldlM LockedSynCookies.removeCookie self.data

def cookie (self : SynCookies) (endpoint : SocketAddrV6) :
    Except String (Option Cookie × SynCookies) :=
  match self.data.cookies.lookup endpoint with
  | some info => (fun data => (some info.cookie, { self with data })) <$> self.data.removeCookie endpoint
  | none => .ok (none, self)

end SynCookies

/-! ## The count per IP

`cookies_per_ip[ip]` is the number of stored cookies whose endpoint has that IP, and it never
exceeds the cap; so the count taken out by `dec_cookie_count` is always there. -/

namespace LockedSynCookies

def storedFor (lock : LockedSynCookies) (ip : Ipv6Addr) : Nat :=
  countKeys (fun endpoint => endpoint.ip == ip) lock.cookies

def Counted (lock : LockedSynCookies) : Prop := ∀ ip, lock.ipCookies ip = lock.storedFor ip

theorem ipCookies_insert (cookies : Table SocketAddrV6 SynCookieInfo)
    (cookiesPerIp : Table Ipv6Addr Nat) (ip ip' : Ipv6Addr) (n : Nat) :
    (⟨cookies, cookiesPerIp.insert ip n⟩ : LockedSynCookies).ipCookies ip' =
      if ip' = ip then n else (cookiesPerIp.lookup ip').getD 0 := by
  by_cases h : ip' = ip
  · subst h
    simp [ipCookies]
  · simp [ipCookies, AList.lookup_insert_ne h, h]

theorem storedFor_mk (cookies : Table SocketAddrV6 SynCookieInfo)
    (cookiesPerIp : Table Ipv6Addr Nat) (ip : Ipv6Addr) :
    (⟨cookies, cookiesPerIp⟩ : LockedSynCookies).storedFor ip =
      countKeys (fun endpoint => endpoint.ip == ip) cookies := rfl

theorem removeCookie_of_mem {lock : LockedSynCookies} (hc : lock.Counted)
    {endpoint : SocketAddrV6} (h : endpoint ∈ lock.cookies) :
    ∃ lock', lock.removeCookie endpoint = .ok lock' ∧ lock'.cookies = lock.cookies.erase endpoint ∧
      lock'.Counted ∧ ∀ ip, lock'.ipCookies ip ≤ lock.ipCookies ip := by
  have herase := fun ip => countKeys_erase_of_mem (fun e : SocketAddrV6 => e.ip == ip) h
  have hpos : 0 < lock.ipCookies endpoint.ip := by
    rw [hc]
    exact countKeys_pos_of_mem _ h (by simp)
  refine ⟨⟨lock.cookies.erase endpoint,
    lock.cookiesPerIp.insert endpoint.ip (lock.ipCookies endpoint.ip - 1)⟩,
    by unfold removeCookie decCookieCount; exact if_pos hpos, rfl, ?_, ?_⟩
  · intro ip
    have hcount := herase ip
    rw [ipCookies_insert, storedFor_mk]
    by_cases hip : ip = endpoint.ip
    · subst hip
      simp only [beq_self_eq_true, if_true] at hcount
      rw [if_pos rfl, hc, storedFor]
      omega
    · have hne : (endpoint.ip == ip) = false := by simpa using Ne.symm hip
      simp only [hne, Bool.false_eq_true, if_false, Nat.add_zero] at hcount
      rw [if_neg hip, ← hcount]
      exact hc ip
  · intro ip
    rw [ipCookies_insert]
    split_ifs with hip
    · subst hip
      omega
    · exact le_refl _

end LockedSynCookies

namespace SynCookies

structure Consistent (cookies : SynCookies) : Prop where
  counted : cookies.data.Counted
  le_max : ∀ ip, cookies.data.ipCookies ip ≤ cookies.maxCookiesPerIp

theorem consistent_new (maxCookiesPerIp : Nat) : (new maxCookiesPerIp).Consistent :=
  ⟨fun ip => by simp [new, LockedSynCookies.ipCookies, LockedSynCookies.storedFor, countKeys],
    fun ip => by simp [new, LockedSynCookies.ipCookies]⟩

section Consistent

variable {self : SynCookies} (hs : self.Consistent)
include hs

theorem assign_consistent (endpoint : SocketAddrV6) (cookie : Cookie) (now : Nat) :
    (self.assign endpoint cookie now).2.Consistent := by
  simp only [assign]
  split_ifs with hmem hcap
  · exact hs
  · constructor
    · intro ip
      have hcount := countKeys_insert_of_not_mem (fun e : SocketAddrV6 => e.ip == ip) hmem
        ⟨cookie, now⟩
      rw [LockedSynCookies.ipCookies_insert, LockedSynCookies.storedFor_mk, hcount]
      by_cases hip : ip = endpoint.ip
      · subst hip
        rw [if_pos rfl, hs.counted, LockedSynCookies.storedFor]
        simp
      · have hne : (endpoint.ip == ip) = false := by simpa using Ne.symm hip
        rw [if_neg hip, hne]
        exact hs.counted ip
    · intro ip
      dsimp only
      rw [LockedSynCookies.ipCookies_insert]
      split_ifs with hip
      · omega
      · exact hs.le_max ip
  · -- capped: only the zero count of `or_default` is written
    have hsame : ∀ ip, (⟨self.data.cookies, self.data.cookiesPerIp.insert endpoint.ip
        (self.data.ipCookies endpoint.ip)⟩ : LockedSynCookies).ipCookies ip =
          self.data.ipCookies ip := by
      intro ip
      rw [LockedSynCookies.ipCookies_insert]
      split_ifs with hip
      · rw [hip]
      · rfl
    exact ⟨fun ip => (hsame ip).trans (hs.counted ip), fun ip => (hsame ip) ▸ hs.le_max ip⟩

theorem removeCookie_consistent {endpoint : SocketAddrV6} (h : endpoint ∈ self.data.cookies) :
    ∃ lock', self.data.removeCookie endpoint = .ok lock' ∧
      lock'.cookies = self.data.cookies.erase endpoint ∧ ({ self with data := lock' } : SynCookies).Consistent := by
  obtain ⟨lock', hrem, hcookies, hc, hle⟩ := LockedSynCookies.removeCookie_of_mem hs.counted h
  exact ⟨lock', hrem, hcookies, hc, fun ip => (hle ip).trans (hs.le_max ip)⟩

theorem validate_consistent (c : Crypto) (endpoint : SocketAddrV6) (nodeId : Account)
    (signature : Signature) :
    (∀ self', self.validate c endpoint nodeId signature = .ok self' → self'.Consistent) ∧
      ∀ e, self.validate c endpoint nodeId signature = .error e → e = "could not verify message" := by
  unfold validate
  split
  · rename_i info hinfo
    split
    · have hmem : endpoint ∈ self.data.cookies := AList.lookup_isSome.mp (by simp [hinfo])
      obtain ⟨lock', hrem, -, hcons⟩ := removeCookie_consistent hs hmem
      rw [hrem, Result.map_ok]
      exact ⟨fun self' h => Except.ok.inj h ▸ hcons, fun e h => nomatch h⟩
    · refine ⟨fun self' h => (nomatch h), fun e h => ?_⟩
      cases h
      rfl
  · exact ⟨fun self' h => Except.ok.inj h ▸ hs, fun e h => nomatch h⟩

theorem cookie_consistent (endpoint : SocketAddrV6) :
    ∃ result, self.cookie endpoint = .ok result ∧
      result.1 = (self.data.cookies.lookup endpoint).map (·.cookie) ∧
      endpoint ∉ result.2.data.cookies ∧ result.2.Consistent := by
  unfold cookie
  split
  · rename_i info hinfo
    have hmem : endpoint ∈ self.data.cookies := AList.lookup_isSome.mp (by simp [hinfo])
    obtain ⟨lock', hrem, hcookies, hcons⟩ := removeCookie_consistent hs hmem
    rw [hrem, Result.map_ok]
    exact ⟨_, rfl, by simp [hinfo], by simp [hcookies], hcons⟩
  · rename_i hnone
    exact ⟨_, rfl, by simp [hnone], AList.lookup_eq_none.mp hnone, hs⟩

end Consistent

theorem foldlM_removeCookie (endpoints : List SocketAddrV6) (hnodup : endpoints.Nodup) :
    ∀ self : SynCookies, self.Consistent → (∀ e ∈ endpoints, e ∈ self.data.cookies) →
      ∃ lock', endpoints.foldlM LockedSynCookies.removeCookie self.data = .ok lock' ∧
        ({ self with data := lock' } : SynCookies).Consistent ∧
        ∀ e, e ∈ lock'.cookies ↔ e ∈ self.data.cookies ∧ e ∉ endpoints := by
  induction endpoints with
  | nil =>
    intro self hs _
    exact ⟨self.data, rfl, hs, by simp⟩
  | cons endpoint rest ih =>
    intro self hs hmem
    obtain ⟨hnot, hrest⟩ := List.nodup_cons.mp hnodup
    obtain ⟨lock1, hrem, hcookies, hcons⟩ := removeCookie_consistent hs (hmem endpoint List.mem_cons_self)
    have hmem' : ∀ e ∈ rest, e ∈ lock1.cookies := by
      intro e he
      rw [hcookies, AList.mem_erase]
      exact ⟨fun h => hnot (h ▸ he), hmem e (List.mem_cons_of_mem _ he)⟩
    obtain ⟨lock', hfold, hcons', hiff⟩ := ih hrest _ hcons hmem'
    refine ⟨lock', by simpa [List.foldlM_cons, hrem] using hfold, hcons', ?_⟩
    intro e
    rw [hiff, hcookies, AList.mem_erase]
    simp only [List.mem_cons, not_or]
    tauto

theorem purge_consistent {self : SynCookies} (hs : self.Consistent) (cutoff now : Nat) :
    ∃ self', self.purge cutoff now = .ok self' ∧ self'.Consistent ∧
      ∀ e, e ∈ self'.data.cookies ↔ e ∈ self.data.cookies ∧ e ∉ self.removedEndpoints cutoff now := by
  have hnodup : (self.removedEndpoints cutoff now).Nodup :=
    List.Nodup.sublist (List.filter_sublist.map _) self.data.cookies.nodupKeys
  have hmem : ∀ e ∈ self.removedEndpoints cutoff now, e ∈ self.data.cookies := by
    intro e he
    simp only [removedEndpoints, List.mem_map, List.mem_filter] at he
    obtain ⟨x, ⟨hx, -⟩, rfl⟩ := he
    exact AList.mem_keys.mpr (List.mem_keys_of_mem hx)
  obtain ⟨lock', hfold, hcons, hiff⟩ := foldlM_removeCookie _ hnodup self hs hmem
  refine ⟨{ self with data := lock' }, ?_, hcons, hiff⟩
  rw [purge, hfold, Result.map_ok]

theorem LockedSynCookies.decCookieCount_cookies {lock lock' : LockedSynCookies} {ip : Ipv6Addr}
    (h : lock.decCookieCount ip = .ok lock') : lock'.cookies = lock.cookies := by
  unfold LockedSynCookies.decCookieCount at h
  split at h
  · cases h
    rfl
  · cases h

theorem cookie_eq_ok_some {self self' : SynCookies} {endpoint : SocketAddrV6} {value : Cookie}
    (h : self.cookie endpoint = .ok (some value, self')) :
    ∃ info, self.data.cookies.lookup endpoint = some info ∧ info.cookie = value ∧
      self'.data.cookies = self.data.cookies.erase endpoint := by
  unfold cookie at h
  split at h
  · rename_i info hinfo
    obtain ⟨lock', hrem, heq⟩ := Result.map_eq_ok.mp h
    simp only [Prod.mk.injEq, Option.some.injEq] at heq
    obtain ⟨rfl, rfl⟩ := heq
    exact ⟨info, hinfo, rfl, LockedSynCookies.decCookieCount_cookies hrem⟩
  · cases h

/-- The calls other threads make on the shared store. A failed `validate` returns its error to
its caller and leaves the store as it was; only a panic stops the run. -/
inductive Call
  | assign (endpoint : SocketAddrV6) (cookie : Cookie) (now : Nat)
  | validate (endpoint : SocketAddrV6) (nodeId : Account) (signature : Signature)
  | purge (cutoff now : Nat)
  | cookie (endpoint : SocketAddrV6)

def Call.apply (c : Crypto) (self : SynCookies) : Call → Except String SynCookies
  | .assign endpoint value now => .ok (self.assign endpoint value now).2
  | .validate endpoint nodeId signature =>
    match self.validate c endpoint nodeId signature with
    | .ok self' => .ok self'
    | .error e => if e = "could not verify message" then .ok self else .error e
  | .purge cutoff now => self.purge cutoff now
  | .cookie endpoint => (·.2) <$> self.cookie endpoint

theorem Call.apply_consistent (c : Crypto) {self : SynCookies} (hs : self.Consistent)
    (call : Call) : ∃ self', call.apply c self = .ok self' ∧ self'.Consistent := by
  cases call with
  | assign endpoint value now => exact ⟨_, rfl, assign_consistent hs endpoint value now⟩
  | validate endpoint nodeId signature =>
    obtain ⟨hok, herr⟩ := validate_consistent hs c endpoint nodeId signature
    cases hv : self.validate c endpoint nodeId signature with
    | ok self' => exact ⟨self', by simp [apply, hv], hok self' hv⟩
    | error e => exact ⟨self, by simp [apply, hv, herr e hv], hs⟩
  | purge cutoff now =>
    obtain ⟨self', hpurge, hcons, -⟩ := purge_consistent hs cutoff now
    exact ⟨self', hpurge, hcons⟩
  | cookie endpoint =>
    obtain ⟨result, hcookie, -, -, hcons⟩ := cookie_consistent hs endpoint
    exact ⟨result.2, by simp [apply, hcookie], hcons⟩

/-- Any interleaving of calls from a new store: `dec_cookie_count` never panics, and the count
of every IP stays exact and under the cap. -/
theorem run_consistent (c : Crypto) (maxCookiesPerIp : Nat) (calls : List Call) :
    ∃ self', calls.foldlM (Call.apply c) (new maxCookiesPerIp) = .ok self' ∧ self'.Consistent := by
  suffices h : ∀ self : SynCookies, self.Consistent →
      ∃ self', calls.foldlM (Call.apply c) self = .ok self' ∧ self'.Consistent from
    h _ (consistent_new maxCookiesPerIp)
  induction calls with
  | nil => exact fun self hs => ⟨self, rfl, hs⟩
  | cons call calls ih =>
    intro self hs
    obtain ⟨self1, happly, hs1⟩ := Call.apply_consistent c hs call
    obtain ⟨self', hrest, hs'⟩ := ih self1 hs1
    exact ⟨self', by simpa [List.foldlM_cons, happly] using hrest, hs'⟩

theorem validate_of_lookup_eq_none {self : SynCookies} (c : Crypto) {endpoint : SocketAddrV6}
    (nodeId : Account) (signature : Signature) (h : self.data.cookies.lookup endpoint = none) :
    self.validate c endpoint nodeId signature = .ok self := by
  simp [validate, h]

theorem validate_without_cookie (c : Crypto) (maxCookiesPerIp : Nat) (endpoint : SocketAddrV6)
    (nodeId : Account) (signature : Signature) :
    endpoint ∉ (new maxCookiesPerIp).data.cookies ∧
      (new maxCookiesPerIp).validate c endpoint nodeId signature = .ok (new maxCookiesPerIp) :=
  ⟨AList.notMem_empty endpoint, validate_of_lookup_eq_none c nodeId signature rfl⟩

end SynCookies

end RsbanNode.Transport
