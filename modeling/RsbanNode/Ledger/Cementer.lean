import RsbanNode.Ledger.Rollback

namespace RsbanNode.Ledger

open RsbanNode.Primitives RsbanNode.Blocks RsbanNode.FiniteMap

namespace BlockCementer

/-- Push a dependency; past `maxBlocks` entries the bottom of the stack is forgotten. -/
def pushDependent (maxBlocks : Nat) (stack : List BlockHash) (dependent : BlockHash) :
    List BlockHash :=
  let stack := stack ++ [dependent]
  if stack.length > maxBlocks then stack.tail else stack

/-- The inner loop of `confirm`: every unconfirmed dependency goes on the stack. -/
def pushUnconfirmed (s : LedgerStore) (maxBlocks : Nat) (stack : List BlockHash)
    (dependents : List BlockHash) : List BlockHash :=
  dependents.foldl (fun stack dependent =>
    if !dependent.isZero && !s.confirmedBlockExistsOrPruned dependent then
      pushDependent maxBlocks stack dependent
    else stack) stack

def cementBlock (c : Crypto) (s : LedgerStore) (block : SavedBlock) : LedgerStore :=
  { s with
    confirmationHeight :=
      s.confirmationHeight.insert block.account ⟨block.height, block.hash c⟩
    cementedCount := s.cementedCount + 1 }

/-- The loop of `BlockCementer::confirm`. The block on top of the stack is cemented once no
unconfirmed dependency was pushed over it. The source refreshes the transaction now and then
and stops if the target was rolled back meanwhile; with one writer that never happens, so the
refresh is left out. -/
def confirmLoop (l : Ledger) (maxBlocks : Nat) :
    Nat → List BlockHash → List SavedBlock → LedgerStore →
      Except String (List SavedBlock × LedgerStore)
  | 0, _, _, _ => .error "cementing did not finish"
  | fuel + 1, stack, result, s =>
    match stack.getLast? with
    | none => .ok (result, s)
    | some hash =>
      match s.getBlock hash with
      -- the source unwraps the block
      | none => .error "block not found"
      | some block =>
        let stack := pushUnconfirmed s maxBlocks stack
          (block.dependentBlocks l.constants.epochs l.constants.genesisAccount)
        let (stack, result, s) :=
          if stack.getLast? = some hash then
            if !s.confirmedBlockExistsOrPruned hash then
              (stack.dropLast, result ++ [block], cementBlock l.crypto s block)
            else (stack.dropLast, result, s)
          else (stack, result, s)
        -- an early return may leave parts of the dependency tree unconfirmed
        if result.length ≥ maxBlocks then .ok (result, s)
        else confirmLoop l maxBlocks fuel stack result s

end BlockCementer

/-- `Ledger::confirm_max`: cement `targetHash` and its unconfirmed dependencies, at most
`maxBlocks` of them. -/
def confirmMax (l : Ledger) (fuel : Nat) (s : LedgerStore) (targetHash : BlockHash)
    (maxBlocks : Nat) : Except String (List SavedBlock × LedgerStore) :=
  BlockCementer.confirmLoop l maxBlocks fuel [targetHash] [] s
namespace BlockCementer

variable (l : Ledger)

/-- One round of the loop on the block `block` stored under the top of the stack, `hash`. -/
def round (maxBlocks : Nat) (stack : List BlockHash) (result : List SavedBlock) (s : LedgerStore)
    (hash : BlockHash) (block : SavedBlock) : List BlockHash × List SavedBlock × LedgerStore :=
  let stack := pushUnconfirmed s maxBlocks stack
    (block.dependentBlocks l.constants.epochs l.constants.genesisAccount)
  if stack.getLast? = some hash then
    if !s.confirmedBlockExistsOrPruned hash then
      (stack.dropLast, result ++ [block], cementBlock l.crypto s block)
    else (stack.dropLast, result, s)
  else (stack, result, s)

theorem confirmLoop_succ {maxBlocks fuel : Nat} {stack : List BlockHash}
    {result : List SavedBlock} {s : LedgerStore} {hash : BlockHash} {block : SavedBlock}
    (hlast : stack.getLast? = some hash) (hblock : s.getBlock hash = some block) :
    confirmLoop l maxBlocks (fuel + 1) stack result s =
      if (round l maxBlocks stack result s hash block).2.1.length ≥ maxBlocks then
        .ok ((round l maxBlocks stack result s hash block).2.1,
          (round l maxBlocks stack result s hash block).2.2)
      else confirmLoop l maxBlocks fuel (round l maxBlocks stack result s hash block).1
        (round l maxBlocks stack result s hash block).2.1
        (round l maxBlocks stack result s hash block).2.2 := by
  simp only [confirmLoop, hlast, hblock]
  rfl

/-! ### Cementing only confirms more -/

theorem confirmed_iff {s : LedgerStore} {hash : BlockHash} :
    s.confirmedBlockExistsOrPruned hash = true ↔ hash ∈ s.pruned ∨
      ∃ b info, s.getBlock hash = some b ∧ s.confirmationHeight.lookup b.account = some info ∧
        b.height ≤ info.height := by
  simp only [LedgerStore.confirmedBlockExistsOrPruned, LedgerStore.confirmedGetBlock,
    Bool.or_eq_true, List.contains_iff_mem]
  constructor
  · rintro (hp | hc)
    · exact .inl hp
    · right
      cases hb : s.getBlock hash with
      | none => simp [hb] at hc
      | some b =>
        cases hi : s.confirmationHeight.lookup b.account with
        | none => simp [hb, hi] at hc
        | some info =>
          by_cases hh : b.height ≤ info.height
          · exact ⟨b, info, rfl, hi, hh⟩
          · simp [hb, hi, hh] at hc
  · rintro (hp | ⟨b, info, hb, hi, hh⟩)
    · exact .inl hp
    · right
      simp [hb, hi, hh]

variable {c : Crypto} {s : LedgerStore} {hash : BlockHash} {block : SavedBlock}

theorem cementBlock_getBlock (c : Crypto) (s : LedgerStore) (block : SavedBlock) :
    (cementBlock c s block).getBlock = s.getBlock := rfl

theorem confirmed_cementBlock (hunconf : s.confirmedBlockExistsOrPruned hash = false)
    (hblock : s.getBlock hash = some block) {d : BlockHash}
    (hd : s.confirmedBlockExistsOrPruned d = true) :
    (cementBlock c s block).confirmedBlockExistsOrPruned d = true := by
  rcases confirmed_iff.mp hd with hp | ⟨b, info, hb, hi, hh⟩
  · exact confirmed_iff.mpr (.inl hp)
  apply confirmed_iff.mpr
  right
  by_cases hacc : b.account = block.account
  · have hlt : info.height < block.height := by
      by_contra hge
      have hconf : s.confirmedBlockExistsOrPruned hash = true :=
        confirmed_iff.mpr (.inr ⟨block, info, hblock, hacc ▸ hi, not_lt.mp hge⟩)
      rw [hunconf] at hconf
      exact Bool.false_ne_true hconf
    refine ⟨b, ⟨block.height, block.hash c⟩, hb, ?_, by simp only; omega⟩
    rw [hacc]
    exact AList.lookup_insert _
  · refine ⟨b, info, hb, ?_, hh⟩
    simp [cementBlock, AList.lookup_insert_ne hacc, hi]

theorem confirmed_cementBlock_self {h' : BlockHash} (hb : s.getBlock h' = some block) :
    (cementBlock c s block).confirmedBlockExistsOrPruned h' = true :=
  confirmed_iff.mpr (.inr ⟨block, ⟨block.height, block.hash c⟩, hb, by simp [cementBlock],
    le_refl _⟩)

/-! ### The dependency push -/

/-- The condition under which `confirm` pushes a dependency. -/
def isUnconfirmed (s : LedgerStore) (dependent : BlockHash) : Bool :=
  !dependent.isZero && !s.confirmedBlockExistsOrPruned dependent

theorem pushUnconfirmed_nil (s : LedgerStore) (maxBlocks : Nat) (stack : List BlockHash) :
    pushUnconfirmed s maxBlocks stack [] = stack := rfl

theorem pushUnconfirmed_cons (s : LedgerStore) (maxBlocks : Nat) (stack : List BlockHash)
    (d : BlockHash) (ds : List BlockHash) :
    pushUnconfirmed s maxBlocks stack (d :: ds) =
      pushUnconfirmed s maxBlocks
        (if isUnconfirmed s d then pushDependent maxBlocks stack d else stack) ds := rfl

theorem pushDependent_eq_drop (maxBlocks : Nat) (stack : List BlockHash) (d : BlockHash) :
    ∃ k ≤ 1, pushDependent maxBlocks stack d = (stack ++ [d]).drop k := by
  unfold pushDependent
  dsimp only
  split
  · exact ⟨1, le_refl _, List.drop_one.symm⟩
  · exact ⟨0, Nat.zero_le _, rfl⟩

theorem getLast?_pushDependent {maxBlocks : Nat} (hmax : 1 ≤ maxBlocks) (stack : List BlockHash)
    (d : BlockHash) : (pushDependent maxBlocks stack d).getLast? = some d := by
  unfold pushDependent
  dsimp only
  by_cases hlen : (stack ++ [d]).length > maxBlocks
  · rw [if_pos hlen, ← List.drop_one, List.getLast?_drop, if_neg (by omega),
      List.getLast?_concat]
  · rw [if_neg hlen, List.getLast?_concat]

theorem pushUnconfirmed_eq_drop (s : LedgerStore) (maxBlocks : Nat) (ds : List BlockHash) :
    ∀ stack, ∃ k, pushUnconfirmed s maxBlocks stack ds =
      (stack ++ ds.filter (isUnconfirmed s)).drop k := by
  induction ds with
  | nil => exact fun stack => ⟨0, by simp [pushUnconfirmed_nil]⟩
  | cons d ds ih =>
    intro stack
    rw [pushUnconfirmed_cons]
    by_cases hd : isUnconfirmed s d
    · obtain ⟨j, hj, hpush⟩ := pushDependent_eq_drop maxBlocks stack d
      obtain ⟨k, hk⟩ := ih (pushDependent maxBlocks stack d)
      refine ⟨j + k, ?_⟩
      have hlen : j ≤ (stack ++ [d]).length := by simp; omega
      rw [if_pos hd, hk, hpush, ← List.drop_append_of_le_length hlen, List.drop_drop,
        List.filter_cons_of_pos hd, List.append_assoc, List.singleton_append]
    · obtain ⟨k, hk⟩ := ih stack
      exact ⟨k, by rw [if_neg hd, hk, List.filter_cons_of_neg hd]⟩

theorem pushUnconfirmed_of_filter_eq_nil (s : LedgerStore) (maxBlocks : Nat)
    (ds : List BlockHash) (h : ds.filter (isUnconfirmed s) = []) :
    ∀ stack, pushUnconfirmed s maxBlocks stack ds = stack := by
  induction ds with
  | nil => exact fun stack => rfl
  | cons d ds ih =>
    intro stack
    have hd : isUnconfirmed s d = false := by
      simpa using List.filter_eq_nil_iff.mp h d List.mem_cons_self
    rw [List.filter_cons_of_neg (by simp [hd])] at h
    rw [pushUnconfirmed_cons, hd, if_neg Bool.false_ne_true, ih h]

theorem getLast?_pushUnconfirmed (s : LedgerStore) {maxBlocks : Nat} (hmax : 1 ≤ maxBlocks)
    (ds : List BlockHash) :
    ∀ stack, ds.filter (isUnconfirmed s) ≠ [] →
      (pushUnconfirmed s maxBlocks stack ds).getLast? = (ds.filter (isUnconfirmed s)).getLast? := by
  induction ds with
  | nil => exact fun stack h => absurd rfl h
  | cons d ds ih =>
    intro stack hne
    rw [pushUnconfirmed_cons]
    by_cases hd : isUnconfirmed s d
    · rw [if_pos hd, List.filter_cons_of_pos hd]
      by_cases hrest : ds.filter (isUnconfirmed s) = []
      · rw [pushUnconfirmed_of_filter_eq_nil s maxBlocks ds hrest, hrest,
          getLast?_pushDependent hmax]
        rfl
      · rw [ih _ hrest, List.getLast?_cons]
        cases hl : (ds.filter (isUnconfirmed s)).getLast? with
        | none => exact absurd (List.getLast?_eq_none_iff.mp hl) hrest
        | some x => rfl
    · rw [if_neg hd]
      rw [List.filter_cons_of_neg hd] at hne ⊢
      exact ih stack hne

theorem isUnconfirmed_eq_true {s : LedgerStore} {d : BlockHash} :
    isUnconfirmed s d = true ↔ d.isZero = false ∧ s.confirmedBlockExistsOrPruned d = false := by
  simp [isUnconfirmed]

theorem isUnconfirmed_of_confirmed_mono {s s' : LedgerStore}
    (hmono : ∀ d, s.confirmedBlockExistsOrPruned d = true → s'.confirmedBlockExistsOrPruned d = true)
    {d : BlockHash} (hd : isUnconfirmed s' d = true) : isUnconfirmed s d = true := by
  rw [isUnconfirmed_eq_true] at hd ⊢
  refine ⟨hd.1, ?_⟩
  cases hc : s.confirmedBlockExistsOrPruned d with
  | false => rfl
  | true => rw [hmono d hc] at hd; exact absurd hd.2 (by decide)

/-! ### A potential for the stack

Every entry weighs a power of four of its rank in the dependency order: `4 ^ rank` once all
its unconfirmed dependencies lie above it on the stack, `4 ^ (rank + 1)` before. Pushing the
(at most two) dependencies of the top entry trades its `4 ^ (rank + 1)` for at most
`3 * 4 ^ rank`, and popping removes a weight, so each round lowers the potential. -/

section Potential

variable (l : Ledger) (rank : BlockHash → Nat)

/-- The dependencies `confirm` would push for the block stored under `hash`. -/
def unconfirmedDependencies (s : LedgerStore) (hash : BlockHash) : List BlockHash :=
  match s.getBlock hash with
  | none => []
  | some block =>
    (block.dependentBlocks l.constants.epochs l.constants.genesisAccount).filter (isUnconfirmed s)

def Covered (s : LedgerStore) (hash : BlockHash) (above : List BlockHash) : Prop :=
  ∀ d ∈ unconfirmedDependencies l s hash, d ∈ above

instance (s : LedgerStore) (hash : BlockHash) (above : List BlockHash) :
    Decidable (Covered l s hash above) :=
  inferInstanceAs (Decidable (∀ d ∈ unconfirmedDependencies l s hash, d ∈ above))

def weight (s : LedgerStore) (hash : BlockHash) (above : List BlockHash) : Nat :=
  if Covered l s hash above then 4 ^ rank hash else 4 ^ (rank hash + 1)

/-- The weights of a stack listed bottom first, each entry weighed against those above it. -/
def potential (s : LedgerStore) : List BlockHash → Nat
  | [] => 0
  | e :: above => weight l rank s e above + potential s above

variable {l rank}

@[simp] theorem potential_nil (s : LedgerStore) : potential l rank s [] = 0 := rfl

@[simp] theorem potential_cons (s : LedgerStore) (e : BlockHash) (above : List BlockHash) :
    potential l rank s (e :: above) = weight l rank s e above + potential l rank s above := rfl

theorem mem_unconfirmedDependencies {s : LedgerStore} {hash d : BlockHash} :
    d ∈ unconfirmedDependencies l s hash ↔ ∃ block, s.getBlock hash = some block ∧
      d ∈ block.dependentBlocks l.constants.epochs l.constants.genesisAccount ∧
      isUnconfirmed s d = true := by
  unfold unconfirmedDependencies
  cases s.getBlock hash <;> simp

theorem weight_le (s : LedgerStore) (e : BlockHash) (above : List BlockHash) :
    weight l rank s e above ≤ 4 ^ (rank e + 1) := by
  unfold weight
  split
  · exact Nat.pow_le_pow_right (by decide) (Nat.le_succ _)
  · exact le_refl _

theorem one_le_weight (s : LedgerStore) (e : BlockHash) (above : List BlockHash) :
    1 ≤ weight l rank s e above := by
  unfold weight
  split <;> exact Nat.one_le_pow _ _ (by decide)

theorem weight_of_covered {s : LedgerStore} {e : BlockHash} {above : List BlockHash}
    (h : Covered l s e above) : weight l rank s e above = 4 ^ rank e := if_pos h

theorem weight_of_not_covered {s : LedgerStore} {e : BlockHash} {above : List BlockHash}
    (h : ¬Covered l s e above) : weight l rank s e above = 4 ^ (rank e + 1) := if_neg h

theorem weight_le_weight {s s' : LedgerStore} {e : BlockHash} {above above' : List BlockHash}
    (h : Covered l s e above → Covered l s' e above') :
    weight l rank s' e above' ≤ weight l rank s e above := by
  by_cases hc : Covered l s e above
  · rw [weight_of_covered hc, weight_of_covered (h hc)]
  · rw [weight_of_not_covered hc]
    exact weight_le s' e above'

theorem potential_append_le (s : LedgerStore) {T T' : List BlockHash} (hsub : ∀ x ∈ T, x ∈ T') :
    ∀ S, potential l rank s (S ++ T') + potential l rank s T ≤
      potential l rank s (S ++ T) + potential l rank s T' := by
  intro S
  induction S with
  | nil => simp [Nat.add_comm]
  | cons e S ih =>
    have hw : weight l rank s e (S ++ T') ≤ weight l rank s e (S ++ T) :=
      weight_le_weight fun hc d hd => by
        rcases List.mem_append.mp (hc d hd) with hS | hT
        · exact List.mem_append_left _ hS
        · exact List.mem_append_right _ (hsub d hT)
    simp only [List.cons_append, potential_cons]
    omega

theorem potential_drop_le (s : LedgerStore) :
    ∀ (k : Nat) (L : List BlockHash), potential l rank s (L.drop k) ≤ potential l rank s L
  | 0, _ => le_refl _
  | _ + 1, [] => le_refl _
  | k + 1, e :: L => by
    have := potential_drop_le s k L
    simp only [List.drop_succ_cons, potential_cons]
    omega

theorem potential_le_length_mul (s : LedgerStore) {r : Nat} :
    ∀ (F : List BlockHash), (∀ x ∈ F, rank x < r) → potential l rank s F ≤ F.length * 4 ^ r
  | [], _ => by simp
  | e :: F, hF => by
    have he : weight l rank s e F ≤ 4 ^ r :=
      (weight_le s e F).trans (Nat.pow_le_pow_right (by decide) (hF e List.mem_cons_self))
    have hrest := potential_le_length_mul s F fun x hx => hF x (List.mem_cons_of_mem _ hx)
    simp only [potential_cons, List.length_cons, Nat.succ_mul]
    omega

theorem potential_pop {s s' : LedgerStore} {h : BlockHash}
    (hblocks : s'.getBlock = s.getBlock)
    (hmono : ∀ d, s.confirmedBlockExistsOrPruned d = true → s'.confirmedBlockExistsOrPruned d = true)
    (hh : s'.confirmedBlockExistsOrPruned h = true) :
    ∀ S, potential l rank s' S + weight l rank s h [] ≤ potential l rank s (S ++ [h]) := by
  intro S
  induction S with
  | nil => simp
  | cons e S ih =>
    have hw : weight l rank s' e S ≤ weight l rank s e (S ++ [h]) := by
      apply weight_le_weight
      intro hc d hd
      obtain ⟨b, hb, hdep, hunc⟩ := mem_unconfirmedDependencies.mp hd
      have hold : d ∈ unconfirmedDependencies l s e :=
        mem_unconfirmedDependencies.mpr
          ⟨b, hblocks ▸ hb, hdep, isUnconfirmed_of_confirmed_mono hmono hunc⟩
      have hne : d ≠ h := by
        rintro rfl
        rw [isUnconfirmed_eq_true, hh] at hunc
        exact absurd hunc.2 (by decide)
      simpa [hne] using hc d hold
    simp only [List.cons_append, potential_cons]
    omega

end Potential

theorem confirmLoop_of_getLast?_eq_none (l : Ledger) (maxBlocks fuel : Nat)
    {stack : List BlockHash} (result : List SavedBlock) (s : LedgerStore)
    (h : stack.getLast? = none) : confirmLoop l maxBlocks (fuel + 1) stack result s = .ok (result, s) := by
  simp [confirmLoop, h]

theorem confirmed_of_getBlock_eq {s : LedgerStore} {h h' : BlockHash} {block : SavedBlock}
    (hb : s.getBlock h = some block) (hb' : s.getBlock h' = some block) (hp : h' ∉ s.pruned)
    (hc : s.confirmedBlockExistsOrPruned h' = true) : s.confirmedBlockExistsOrPruned h = true := by
  rcases confirmed_iff.mp hc with hp' | ⟨b, info, hb'', hi, hh⟩
  · exact absurd hp' hp
  · rw [hb'] at hb''
    cases hb''
    exact confirmed_iff.mpr (.inr ⟨_, info, hb, hi, hh⟩)

theorem not_mem_pruned_of_confirmed_eq_false {s : LedgerStore} {h : BlockHash}
    (hc : s.confirmedBlockExistsOrPruned h = false) : h ∉ s.pruned := fun hp => by
  rw [confirmed_iff.mpr (.inl hp)] at hc
  exact absurd hc (by decide)

section Run

variable (l : Ledger) (s₀ : LedgerStore)

/-- What a run of the loop keeps, measured against the store it started from: only
confirmation heights change, and only upwards; every stack entry is a stored block; and the
result lists distinct blocks that were unconfirmed at the start and are confirmed now. -/
structure Run (stack : List BlockHash) (result : List SavedBlock) (s : LedgerStore) : Prop where
  getBlock_eq : s.getBlock = s₀.getBlock
  pruned_eq : s.pruned = s₀.pruned
  confirmed_mono : ∀ d, s₀.confirmedBlockExistsOrPruned d = true →
    s.confirmedBlockExistsOrPruned d = true
  stack_exists : ∀ e ∈ stack, (s.getBlock e).isSome
  nodup : result.Nodup
  cemented : ∀ b ∈ result, ∃ h, s₀.getBlock h = some b ∧
    s₀.confirmedBlockExistsOrPruned h = false ∧ s.confirmedBlockExistsOrPruned h = true

variable {l s₀}

theorem Run.start (htarget : (s₀.getBlock target).isSome) : Run s₀ [target] [] s₀ where
  getBlock_eq := rfl
  pruned_eq := rfl
  confirmed_mono := fun _ h => h
  stack_exists := by simpa using htarget
  nodup := List.nodup_nil
  cemented := by simp

theorem Run.of_stack {stack stack' : List BlockHash} {result : List SavedBlock}
    {s : LedgerStore} (hrun : Run s₀ stack result s)
    (h : ∀ e ∈ stack', (s.getBlock e).isSome) : Run s₀ stack' result s :=
  { hrun with stack_exists := h }

theorem Run.cement {S : List BlockHash} {hash : BlockHash} {result : List SavedBlock}
    {s : LedgerStore} {block : SavedBlock} (hrun : Run s₀ (S ++ [hash]) result s)
    (hblock : s.getBlock hash = some block) (hunc : s.confirmedBlockExistsOrPruned hash = false) :
    Run s₀ S (result ++ [block]) (cementBlock l.crypto s block) where
  getBlock_eq := hrun.getBlock_eq
  pruned_eq := hrun.pruned_eq
  confirmed_mono := fun d hd => confirmed_cementBlock hunc hblock (hrun.confirmed_mono d hd)
  stack_exists := fun e he => hrun.stack_exists e (List.mem_append_left _ he)
  nodup := by
    refine List.nodup_append.mpr ⟨hrun.nodup, List.nodup_singleton _, ?_⟩
    -- a block of the result is confirmed, so it cannot be the one under `hash`
    intro b hb b' hb' hbb'
    rw [List.mem_singleton] at hb'
    obtain ⟨h', hb₀, hc₀, hc⟩ := hrun.cemented b hb
    have hblock' : s.getBlock h' = some block := by rw [hrun.getBlock_eq, hb₀, hbb', hb']
    have hp : h' ∉ s.pruned := hrun.pruned_eq ▸ not_mem_pruned_of_confirmed_eq_false hc₀
    rw [confirmed_of_getBlock_eq hblock hblock' hp hc] at hunc
    exact absurd hunc (by decide)
  cemented := by
    intro b hb
    rcases List.mem_append.mp hb with hold | hnew
    · obtain ⟨h', hb₀, hc₀, hc⟩ := hrun.cemented b hold
      exact ⟨h', hb₀, hc₀, confirmed_cementBlock hunc hblock hc⟩
    · rw [List.mem_singleton.mp hnew]
      refine ⟨hash, hrun.getBlock_eq ▸ hblock, ?_, confirmed_cementBlock_self hblock⟩
      cases hc₀ : s₀.confirmedBlockExistsOrPruned hash with
      | false => rfl
      | true => rw [hrun.confirmed_mono hash hc₀] at hunc; exact absurd hunc (by decide)

theorem Run.exists_of_pushed {stack : List BlockHash} {result : List SavedBlock} {s : LedgerStore}
    (hrun : Run s₀ stack result s)
    (hexists : ∀ h b, s₀.getBlock h = some b →
      ∀ d ∈ b.dependentBlocks l.constants.epochs l.constants.genesisAccount,
        s₀.blockExistsOrPruned d = true)
    {hash d : BlockHash} (hd : d ∈ unconfirmedDependencies l s hash) : (s.getBlock d).isSome := by
  obtain ⟨b, hb, hdep, hunc⟩ := mem_unconfirmedDependencies.mp hd
  have hor := hexists hash b (hrun.getBlock_eq ▸ hb) d hdep
  have hp : d ∉ s₀.pruned :=
    hrun.pruned_eq ▸ not_mem_pruned_of_confirmed_eq_false (isUnconfirmed_eq_true.mp hunc).2
  simp only [LedgerStore.blockExistsOrPruned, LedgerStore.blockExists, Bool.or_eq_true,
    List.contains_iff_mem, hp, false_or] at hor
  rw [hrun.getBlock_eq]
  exact hor

end Run

theorem length_dependentBlocks_le (epochs : Epochs) (genesisAccount : Account)
    (block : SavedBlock) : (block.dependentBlocks epochs genesisAccount).length ≤ 2 := by
  unfold SavedBlock.dependentBlocks
  split
  all_goals first
    | exact List.length_filter_le _ _
    | split
      · exact Nat.zero_le _
      · exact List.length_filter_le _ _

section Round

variable {l : Ledger} {rank : BlockHash → Nat} {s₀ : LedgerStore} {maxBlocks : Nat}

theorem unconfirmedDependencies_of_getBlock {s : LedgerStore} {hash : BlockHash}
    {block : SavedBlock} (hblock : s.getBlock hash = some block) :
    unconfirmedDependencies l s hash =
      (block.dependentBlocks l.constants.epochs l.constants.genesisAccount).filter
        (isUnconfirmed s) := by
  simp [unconfirmedDependencies, hblock]

/-- One round keeps the run invariant, adds at most one block and lowers the potential. -/
theorem round_run (hmax : 1 ≤ maxBlocks)
    (hrank : ∀ h b, s₀.getBlock h = some b →
      ∀ d ∈ b.dependentBlocks l.constants.epochs l.constants.genesisAccount, rank d < rank h)
    (hexists : ∀ h b, s₀.getBlock h = some b →
      ∀ d ∈ b.dependentBlocks l.constants.epochs l.constants.genesisAccount,
        s₀.blockExistsOrPruned d = true)
    {stack : List BlockHash} {result : List SavedBlock} {s : LedgerStore} {hash : BlockHash}
    {block : SavedBlock} (hrun : Run s₀ stack result s) (hlast : stack.getLast? = some hash)
    (hblock : s.getBlock hash = some block)
    {stack' : List BlockHash} {result' : List SavedBlock} {s' : LedgerStore}
    (hround : round l maxBlocks stack result s hash block = (stack', result', s')) :
    Run s₀ stack' result' s' ∧ result'.length ≤ result.length + 1 ∧
      potential l rank s' stack' < potential l rank s stack ∧
      stack'.length ≤ stack.length + 2 ∧
      (∀ d, s.confirmedBlockExistsOrPruned d = true → s'.confirmedBlockExistsOrPruned d = true) ∧
      ((stack' = stack.dropLast ∧ s'.confirmedBlockExistsOrPruned hash = true) ∨
        stack' = pushUnconfirmed s maxBlocks stack
          (block.dependentBlocks l.constants.epochs l.constants.genesisAccount)) := by
  obtain ⟨S, rfl⟩ := List.getLast?_eq_some_iff.mp hlast
  have hU := unconfirmedDependencies_of_getBlock (l := l) hblock
  by_cases hF : unconfirmedDependencies l s hash = []
  · -- nothing to push: the top entry is popped, and cemented unless already confirmed
    have hpush := pushUnconfirmed_of_filter_eq_nil s maxBlocks _ (hU ▸ hF) (S ++ [hash])
    simp only [round, hpush, List.getLast?_concat, List.dropLast_concat, if_true] at hround
    have hweight : 1 ≤ weight l rank s hash [] := one_le_weight s hash []
    by_cases hc : s.confirmedBlockExistsOrPruned hash = true
    · simp only [hc, Bool.not_true, Bool.false_eq_true, if_false, Prod.mk.injEq] at hround
      obtain ⟨rfl, rfl, rfl⟩ := hround
      have hpop : potential l rank s S + weight l rank s hash [] ≤ potential l rank s (S ++ [hash]) :=
        potential_pop rfl (fun _ h => h) hc S
      exact ⟨hrun.of_stack fun e he => hrun.stack_exists e (List.mem_append_left _ he),
        by omega, by omega, by simp; omega, fun _ h => h, .inl ⟨List.dropLast_concat.symm, hc⟩⟩
    · have hunc : s.confirmedBlockExistsOrPruned hash = false := by simpa using hc
      simp only [hunc, Bool.not_false, if_true, Prod.mk.injEq] at hround
      obtain ⟨rfl, rfl, rfl⟩ := hround
      have hpop : potential l rank (cementBlock l.crypto s block) S + weight l rank s hash [] ≤
          potential l rank s (S ++ [hash]) :=
        potential_pop (cementBlock_getBlock _ _ _) (fun _ => confirmed_cementBlock hunc hblock)
          (confirmed_cementBlock_self hblock) S
      exact ⟨hrun.cement hblock hunc, by simp, by omega, by simp; omega,
        fun _ => confirmed_cementBlock hunc hblock,
        .inl ⟨List.dropLast_concat.symm, confirmed_cementBlock_self hblock⟩⟩
  · -- the unconfirmed dependencies go on top of the entry, which stays
    set F := unconfirmedDependencies l s hash with hFdef
    have hrankF : ∀ x ∈ F, rank x < rank hash := fun x hx => by
      rw [hU] at hx
      exact hrank hash block (hrun.getBlock_eq ▸ hblock) x (List.mem_of_mem_filter hx)
    have htop : (pushUnconfirmed s maxBlocks (S ++ [hash])
        (block.dependentBlocks l.constants.epochs l.constants.genesisAccount)).getLast? ≠
          some hash := by
      rw [getLast?_pushUnconfirmed s hmax _ _ (hU ▸ hF), ← hU]
      intro htop
      have := hrankF hash (List.mem_of_getLast? htop)
      omega
    obtain ⟨k, hk⟩ := pushUnconfirmed_eq_drop s maxBlocks
      (block.dependentBlocks l.constants.epochs l.constants.genesisAccount) (S ++ [hash])
    rw [← hU] at hk
    simp only [round, if_neg htop, Prod.mk.injEq] at hround
    obtain ⟨rfl, rfl, rfl⟩ := hround
    have hFlen : F.length ≤ 2 := by
      rw [hU]
      exact (List.length_filter_le _ _).trans (length_dependentBlocks_le _ _ _)
    refine ⟨hrun.of_stack ?_, by omega, ?_, ?_, fun _ h => h, .inr rfl⟩
    · intro e he
      rw [hk] at he
      rcases List.mem_append.mp (List.mem_of_mem_drop he) with hS | hFe
      · exact hrun.stack_exists e hS
      · exact hrun.exists_of_pushed hexists hFe
    · -- the entry's weight falls from `4 ^ (r + 1)` to `4 ^ r`, the pushed ones add `≤ 2 * 4 ^ r`
      have hdrop : potential l rank s ((S ++ [hash] ++ F).drop k) ≤
          potential l rank s (S ++ hash :: F) := by
        simpa using potential_drop_le s k (S ++ [hash] ++ F)
      have happ : potential l rank s (S ++ hash :: F) + potential l rank s [hash] ≤
          potential l rank s (S ++ [hash]) + potential l rank s (hash :: F) :=
        potential_append_le s (by simp) S
      have hsingle : potential l rank s [hash] = 4 ^ (rank hash + 1) := by
        have hnot : ¬Covered l s hash [] := fun hc => by
          obtain ⟨x, hx⟩ := List.exists_mem_of_ne_nil F hF
          exact absurd (hc x hx) List.not_mem_nil
        simp [weight_of_not_covered hnot]
      have hcons : potential l rank s (hash :: F) ≤ 4 ^ rank hash + F.length * 4 ^ rank hash := by
        have hcov : Covered l s hash F := fun _ hx => hx
        simp only [potential_cons, weight_of_covered hcov]
        exact Nat.add_le_add_left (potential_le_length_mul s F hrankF) _
      have hlen : F.length * 4 ^ rank hash ≤ 2 * 4 ^ rank hash := Nat.mul_le_mul_right _ hFlen
      have hpow : 4 ^ (rank hash + 1) = 4 * 4 ^ rank hash := Nat.pow_succ'
      have hone : 1 ≤ 4 ^ rank hash := Nat.one_le_pow _ _ (by decide)
      rw [hk]
      omega
    · rw [hk, List.length_drop]
      simp only [List.length_append, List.length_singleton]
      omega

end Round

section Loop

variable {l : Ledger} {rank : BlockHash → Nat} {s₀ : LedgerStore} {maxBlocks : Nat}

/-- Fuel above the potential carries the loop to its end: induction on the fuel, with the
run invariant, the potential bound and any property `P` that every round keeps. A run ends with
an empty stack unless it stopped at `maxBlocks` blocks. -/
theorem confirmLoop_run (hmax : 1 ≤ maxBlocks)
    (hrank : ∀ h b, s₀.getBlock h = some b →
      ∀ d ∈ b.dependentBlocks l.constants.epochs l.constants.genesisAccount, rank d < rank h)
    (hexists : ∀ h b, s₀.getBlock h = some b →
      ∀ d ∈ b.dependentBlocks l.constants.epochs l.constants.genesisAccount,
        s₀.blockExistsOrPruned d = true)
    (P : List BlockHash → List SavedBlock → LedgerStore → Prop)
    (hP : ∀ {stack result s hash block stack' result' s'}, Run s₀ stack result s →
      P stack result s → stack.getLast? = some hash → s.getBlock hash = some block →
      round l maxBlocks stack result s hash block = (stack', result', s') → P stack' result' s') :
    ∀ fuel stack result s, Run s₀ stack result s → P stack result s →
      result.length < maxBlocks → potential l rank s stack < fuel →
      ∃ blocks s' stack', confirmLoop l maxBlocks fuel stack result s = .ok (blocks, s') ∧
        blocks.length ≤ maxBlocks ∧ Run s₀ stack' blocks s' ∧ P stack' blocks s' ∧
        (blocks.length < maxBlocks → stack' = []) := by
  intro fuel
  induction fuel with
  | zero => exact fun _ _ _ _ _ _ h => absurd h (Nat.not_lt_zero _)
  | succ fuel ih =>
    intro stack result s hrun hPs hlen hpot
    cases hl : stack.getLast? with
    | none =>
      exact ⟨result, s, stack, confirmLoop_of_getLast?_eq_none l maxBlocks fuel result s hl,
        le_of_lt hlen, hrun, hPs, fun _ => List.getLast?_eq_none_iff.mp hl⟩
    | some hash =>
      obtain ⟨block, hblock⟩ := Option.isSome_iff_exists.mp
        (hrun.stack_exists hash (List.mem_of_getLast? hl))
      rcases hr : round l maxBlocks stack result s hash block with ⟨stack', result', s'⟩
      obtain ⟨hrun', hlen', hpot', -⟩ := round_run hmax hrank hexists hrun hl hblock hr
      have hPs' := hP hrun hPs hl hblock hr
      rw [confirmLoop_succ l hl hblock, hr]
      dsimp only
      split
      · exact ⟨result', s', stack', rfl, by omega, hrun', hPs', fun h => absurd h (by omega)⟩
      · exact ih stack' result' s' hrun' hPs' (by omega) (by omega)

end Loop

theorem pushUnconfirmed_of_length_le (s : LedgerStore) (maxBlocks : Nat) (ds : List BlockHash) :
    ∀ stack, stack.length + (ds.filter (isUnconfirmed s)).length ≤ maxBlocks →
      pushUnconfirmed s maxBlocks stack ds = stack ++ ds.filter (isUnconfirmed s) := by
  induction ds with
  | nil => exact fun stack _ => by simp [pushUnconfirmed_nil]
  | cons d ds ih =>
    intro stack hlen
    rw [pushUnconfirmed_cons]
    by_cases hd : isUnconfirmed s d
    · rw [List.filter_cons_of_pos hd, List.length_cons] at hlen
      have hpush : pushDependent maxBlocks stack d = stack ++ [d] := by
        unfold pushDependent
        dsimp only
        rw [if_neg (by simp only [List.length_append, List.length_singleton]; omega)]
      rw [if_pos hd, hpush, ih _ (by simp only [List.length_append, List.length_singleton]; omega),
        List.filter_cons_of_pos hd, List.append_assoc, List.singleton_append]
    · rw [List.filter_cons_of_neg hd] at hlen
      rw [if_neg hd, ih _ hlen, List.filter_cons_of_neg hd]

/-! ### The shape of the stack

Each push puts at most two dependencies, of lower rank, on top of the entry they belong to, and
each pop takes the top. Listed top first, every entry of the stack therefore lies below, in rank,
the entry under it or the one under that, and such a stack holds at most `2 * rank + 1`
entries over a bottom of that rank. -/

/-- A stack listed top first in which every entry lies below, in rank, the entry under it or the
one under that. -/
def Descending (rank : BlockHash → Nat) : List BlockHash → Prop
  | x :: y :: z :: rest => (rank x < rank y ∨ rank x < rank z) ∧ Descending rank (y :: z :: rest)
  | [x, y] => rank x < rank y
  | _ => True

section Descending

variable {rank : BlockHash → Nat}

theorem descending_tail : ∀ {T : List BlockHash}, Descending rank T → Descending rank T.tail
  | [], _ | [_], _ | [_, _], _ => trivial
  | _ :: _ :: _ :: _, h => h.2

theorem descending_cons {x y : BlockHash} {T : List BlockHash} (h : Descending rank (y :: T))
    (hlt : rank x < rank y) : Descending rank (x :: y :: T) := by
  cases T with
  | nil => exact hlt
  | cons z rest => exact ⟨.inl hlt, h⟩

theorem length_add_rank_le_of_descending : ∀ (T : List BlockHash) {x b : BlockHash},
    Descending rank (x :: T) → (x :: T).getLast? = some b →
      T.length + 1 + 2 * rank x ≤ 2 * rank b + 1
  | [], x, b, _, hb => by
    obtain rfl : x = b := by simpa using hb
    simp only [List.length_nil]
    omega
  | [y], x, b, h, hb => by
    obtain rfl : y = b := by simpa using hb
    have hxy : rank x < rank y := h
    simp only [List.length_singleton]
    omega
  | y :: z :: rest, x, b, h, hb => by
    obtain ⟨hxyz, h'⟩ := h
    have hb' : (y :: z :: rest).getLast? = some b := by simpa using hb
    have ih₁ := length_add_rank_le_of_descending (z :: rest) h' hb'
    have ih₂ := length_add_rank_le_of_descending rest (descending_tail h') (by simpa using hb')
    simp only [List.length_cons] at ih₁ ih₂ ⊢
    omega

/-- A stack, listed bottom first, of this shape over the bottom `b` holds at most
`2 * rank b + 1` entries. -/
theorem length_le_of_descending {stack : List BlockHash} {b : BlockHash}
    (h : Descending rank stack.reverse) (hb : stack.head? = some b) :
    stack.length ≤ 2 * rank b + 1 := by
  cases hrev : stack.reverse with
  | nil => simp [List.reverse_eq_nil_iff.mp hrev] at hb
  | cons x T =>
    have hlast : (x :: T).getLast? = some b := by rw [← hrev, List.getLast?_reverse, hb]
    have hle := length_add_rank_le_of_descending T (hrev ▸ h) hlast
    have hlen : stack.length = T.length + 1 := by
      rw [← List.length_reverse, hrev, List.length_cons]
    omega

theorem descending_push {stack F : List BlockHash} {e : BlockHash}
    (h : Descending rank stack.reverse) (hlast : stack.getLast? = some e) (hF : F.length ≤ 2)
    (hlt : ∀ d ∈ F, rank d < rank e) : Descending rank (stack ++ F).reverse := by
  obtain ⟨S, rfl⟩ := List.getLast?_eq_some_iff.mp hlast
  have hrev : (S ++ [e]).reverse = e :: S.reverse := by simp
  rw [hrev] at h
  rw [List.reverse_append, hrev]
  match F, hF with
  | [], _ => exact h
  | [d], _ => exact descending_cons h (hlt d (by simp))
  | [d₁, d₂], _ => exact ⟨.inr (hlt d₂ (by simp)), descending_cons h (hlt d₁ (by simp))⟩

theorem descending_dropLast {stack : List BlockHash} (h : Descending rank stack.reverse) :
    Descending rank stack.dropLast.reverse := by
  rw [← List.tail_reverse]
  exact descending_tail h

end Descending

section Target

variable {l : Ledger} {rank : BlockHash → Nat} {s₀ : LedgerStore} {maxBlocks : Nat}

/-- Until the target is confirmed it stays at the bottom of the stack, which keeps the shape
`Descending`. -/
def TargetKept (rank : BlockHash → Nat) (target : BlockHash) (stack : List BlockHash)
    (s : LedgerStore) : Prop :=
  s.confirmedBlockExistsOrPruned target = true ∨
    (stack.head? = some target ∧ Descending rank stack.reverse)

theorem targetKept_round (hmax : 1 ≤ maxBlocks)
    (hrank : ∀ h b, s₀.getBlock h = some b →
      ∀ d ∈ b.dependentBlocks l.constants.epochs l.constants.genesisAccount, rank d < rank h)
    (hexists : ∀ h b, s₀.getBlock h = some b →
      ∀ d ∈ b.dependentBlocks l.constants.epochs l.constants.genesisAccount,
        s₀.blockExistsOrPruned d = true)
    {target : BlockHash} (hbound : 2 * rank target + 1 ≤ maxBlocks)
    {stack : List BlockHash} {result : List SavedBlock} {s : LedgerStore} {hash : BlockHash}
    {block : SavedBlock} (hrun : Run s₀ stack result s) (hkept : TargetKept rank target stack s)
    (hlast : stack.getLast? = some hash) (hblock : s.getBlock hash = some block)
    {stack' : List BlockHash} {result' : List SavedBlock} {s' : LedgerStore}
    (hround : round l maxBlocks stack result s hash block = (stack', result', s')) :
    TargetKept rank target stack' s' := by
  obtain ⟨-, -, -, -, hmono, hshape⟩ := round_run hmax hrank hexists hrun hlast hblock hround
  rcases hkept with hc | ⟨hhead, hdesc⟩
  · exact .inl (hmono _ hc)
  rcases hshape with ⟨rfl, hconf⟩ | rfl
  · -- popping the bottom entry means the target itself was confirmed
    obtain ⟨S, rfl⟩ := List.getLast?_eq_some_iff.mp hlast
    cases S with
    | nil =>
      simp only [List.nil_append, List.head?_cons, Option.some.injEq] at hhead
      exact .inl (hhead ▸ hconf)
    | cons e S =>
      refine .inr ⟨?_, descending_dropLast hdesc⟩
      rw [List.dropLast_concat]
      simpa using hhead
  · -- the unconfirmed dependencies rank below the top; the stack they make is short enough
    -- that the push forgets nothing
    set F := (block.dependentBlocks l.constants.epochs l.constants.genesisAccount).filter
      (isUnconfirmed s) with hFdef
    have hF : F.length ≤ 2 :=
      (List.length_filter_le _ _).trans (length_dependentBlocks_le _ _ block)
    have hlt : ∀ d ∈ F, rank d < rank hash := fun d hd =>
      hrank hash block (hrun.getBlock_eq ▸ hblock) d (List.mem_of_mem_filter hd)
    have hdesc' := descending_push hdesc hlast hF hlt
    have hhead' : (stack ++ F).head? = some target := by
      rw [List.head?_append, hhead]
      rfl
    have hlen := length_le_of_descending hdesc' hhead'
    rw [List.length_append] at hlen
    rw [pushUnconfirmed_of_length_le s maxBlocks _ stack (by rw [← hFdef]; omega)]
    exact .inr ⟨hhead', hdesc'⟩

end Target

end BlockCementer

open BlockCementer in
/-- `confirm_max` terminates on a ledger whose dependencies are acyclic (a rank that drops
along every dependency) and all exist or are pruned: with fuel above `4 ^ (rank target + 1)`
it returns at most `maxBlocks` distinct blocks, each unconfirmed before and confirmed after.
The target itself ends confirmed when fewer than `maxBlocks` blocks come back and
`maxBlocks ≥ 2 * rank target + 1`, the most entries the stack can hold. -/
theorem confirmMax_terminates (l : Ledger) (s : LedgerStore) (target : BlockHash)
    (maxBlocks fuel : Nat) (rank : BlockHash → Nat) (hmax : 1 ≤ maxBlocks)
    (hacyclic : ∀ h b, s.getBlock h = some b →
      ∀ d ∈ b.dependentBlocks l.constants.epochs l.constants.genesisAccount, rank d < rank h)
    (hexists : ∀ h b, s.getBlock h = some b →
      ∀ d ∈ b.dependentBlocks l.constants.epochs l.constants.genesisAccount,
        s.blockExistsOrPruned d = true)
    (htarget : (s.getBlock target).isSome) (hfuel : 4 ^ (rank target + 1) < fuel) :
    ∃ blocks s', confirmMax l fuel s target maxBlocks = .ok (blocks, s') ∧
      blocks.length ≤ maxBlocks ∧ blocks.Nodup ∧
      (∀ b ∈ blocks, ∃ h, s.getBlock h = some b ∧ s.confirmedBlockExistsOrPruned h = false ∧
        s'.confirmedBlockExistsOrPruned h = true) ∧
      (2 * rank target + 1 ≤ maxBlocks → blocks.length < maxBlocks →
        s'.confirmedBlockExistsOrPruned target = true) := by
  -- the target property is carried only when `maxBlocks` is large enough
  let P : List BlockHash → List SavedBlock → LedgerStore → Prop := fun stack _ s' =>
    2 * rank target + 1 ≤ maxBlocks → TargetKept rank target stack s'
  have hP : ∀ {stack result s' hash block stack' result' s''}, Run s stack result s' →
      P stack result s' → stack.getLast? = some hash → s'.getBlock hash = some block →
      round l maxBlocks stack result s' hash block = (stack', result', s'') →
        P stack' result' s'' :=
    fun hrun hPs hl hb hr hbig => targetKept_round hmax hacyclic hexists hbig hrun (hPs hbig) hl hb hr
  have hweight : weight l rank s target [] ≤ 4 ^ (rank target + 1) := weight_le s target []
  have hstart : P [target] [] s := fun _ => .inr ⟨rfl, trivial⟩
  obtain ⟨blocks, s', stack', hloop, hlen, hrun, hPs, hempty⟩ :=
    confirmLoop_run hmax hacyclic hexists P hP fuel [target] [] s (Run.start htarget) hstart
      (by simp only [List.length_nil]; omega) (by simp only [potential_cons, potential_nil]; omega)
  refine ⟨blocks, s', hloop, hlen, hrun.nodup, hrun.cemented, fun hbig hlt => ?_⟩
  rcases hPs hbig with hc | ⟨hhead, -⟩
  · exact hc
  · rw [hempty hlt] at hhead
    exact absurd hhead (by simp)

namespace BlockCementer

/-! ### A self-send

Account `1` opens with `96` (the genesis open), sends to itself with `80` and receives that
send with `64`, whose previous and source are both `80`. Hashes count the serialized bytes,
so the three hashes differ. Only the open is confirmed. -/

def countingCrypto : Crypto :=
  ⟨fun bytes => FixedBytes.ofNat 32 bytes.length, fun _ => FixedBytes.zero 5, fun _ _ _ => true,
    fun _ _ => 0⟩

def openG : SavedBlock :=
  ⟨.legacyOpen ⟨FixedBytes.zero 32, FixedBytes.zero 32, FixedBytes.ofNat 32 1, FixedBytes.zero 64, 0⟩,
    ⟨1, 0, FixedBytes.ofNat 32 80, FixedBytes.ofNat 32 1, 0, ⟨.epoch0, false, true, false⟩, .epoch0⟩⟩

def sendS : SavedBlock :=
  ⟨.legacySend ⟨FixedBytes.ofNat 32 96, FixedBytes.ofNat 32 1, 0, FixedBytes.zero 64, 0⟩,
    ⟨2, 0, FixedBytes.ofNat 32 64, FixedBytes.ofNat 32 1, 0, ⟨.epoch0, true, false, false⟩, .epoch0⟩⟩

def receiveR : SavedBlock :=
  ⟨.legacyReceive ⟨FixedBytes.ofNat 32 80, FixedBytes.ofNat 32 80, FixedBytes.zero 64, 0⟩,
    ⟨3, 0, FixedBytes.zero 32, FixedBytes.ofNat 32 1, 0, ⟨.epoch0, false, true, false⟩, .epoch0⟩⟩

def selfLedger : Ledger := ⟨countingCrypto, ⟨⟨0, 0, 0⟩, openG, FixedBytes.ofNat 32 1, ⟨∅⟩⟩, 0⟩

def selfStore : LedgerStore :=
  ⟨((∅ : Table BlockHash SavedBlock).insert (FixedBytes.ofNat 32 96) openG
      |>.insert (FixedBytes.ofNat 32 80) sendS |>.insert (FixedBytes.ofNat 32 64) receiveR),
    (∅ : Table Account AccountInfo).insert (FixedBytes.ofNat 32 1)
      ⟨FixedBytes.ofNat 32 64, FixedBytes.ofNat 32 1, FixedBytes.ofNat 32 96, 0, 0, 3, .epoch0⟩,
    ∅, ∅,
    (∅ : Table Account ConfirmationHeightInfo).insert (FixedBytes.ofNat 32 1)
      ⟨1, FixedBytes.ofNat 32 96⟩,
    [], ∅, 3, 1, 1⟩

def selfRank (h : BlockHash) : Nat :=
  if h = FixedBytes.ofNat 32 64 then 2 else if h = FixedBytes.ofNat 32 80 then 1 else 0

theorem selfStore_getBlock {h : BlockHash} {b : SavedBlock} (hb : selfStore.getBlock h = some b) :
    (h = FixedBytes.ofNat 32 96 ∧ b = openG) ∨ (h = FixedBytes.ofNat 32 80 ∧ b = sendS) ∨
      (h = FixedBytes.ofNat 32 64 ∧ b = receiveR) := by
  simp only [LedgerStore.getBlock, selfStore] at hb
  by_cases h64 : h = FixedBytes.ofNat 32 64
  · subst h64
    rw [AList.lookup_insert] at hb
    exact .inr (.inr ⟨rfl, (Option.some.inj hb).symm⟩)
  rw [AList.lookup_insert_ne h64] at hb
  by_cases h80 : h = FixedBytes.ofNat 32 80
  · subst h80
    rw [AList.lookup_insert] at hb
    exact .inr (.inl ⟨rfl, (Option.some.inj hb).symm⟩)
  rw [AList.lookup_insert_ne h80] at hb
  by_cases h96 : h = FixedBytes.ofNat 32 96
  · subst h96
    rw [AList.lookup_insert] at hb
    exact .inl ⟨rfl, (Option.some.inj hb).symm⟩
  rw [AList.lookup_insert_ne h96] at hb
  simp at hb

theorem selfStore_acyclic : ∀ h b, selfStore.getBlock h = some b →
    ∀ d ∈ b.dependentBlocks selfLedger.constants.epochs selfLedger.constants.genesisAccount,
      selfRank d < selfRank h := by
  intro h b hb
  rcases selfStore_getBlock hb with ⟨rfl, rfl⟩ | ⟨rfl, rfl⟩ | ⟨rfl, rfl⟩ <;> decide

theorem selfStore_dependencies_exist : ∀ h b, selfStore.getBlock h = some b →
    ∀ d ∈ b.dependentBlocks selfLedger.constants.epochs selfLedger.constants.genesisAccount,
      selfStore.blockExistsOrPruned d = true := by
  intro h b hb
  rcases selfStore_getBlock hb with ⟨rfl, rfl⟩ | ⟨rfl, rfl⟩ | ⟨rfl, rfl⟩ <;> decide

end BlockCementer

open BlockCementer in
theorem confirmMax_terminates_self_send :
    ∃ blocks s', confirmMax selfLedger 65 selfStore (FixedBytes.ofNat 32 64) 5 = .ok (blocks, s') ∧
      blocks.length ≤ 5 ∧ blocks.Nodup ∧
      (∀ b ∈ blocks, ∃ h, selfStore.getBlock h = some b ∧
        selfStore.confirmedBlockExistsOrPruned h = false ∧ s'.confirmedBlockExistsOrPruned h = true) ∧
      (2 * selfRank (FixedBytes.ofNat 32 64) + 1 ≤ 5 → blocks.length < 5 →
        s'.confirmedBlockExistsOrPruned (FixedBytes.ofNat 32 64) = true) :=
  confirmMax_terminates selfLedger selfStore _ 5 65 selfRank (by decide) selfStore_acyclic
    selfStore_dependencies_exist (by decide) (by decide)

open BlockCementer in
/-- With `maxBlocks = 2` the receive pushes the send twice; the stack `[64, 80, 80]` overflows
and loses the target `64`. The send is cemented, one block is returned, and the target stays
unconfirmed, although the dependencies are acyclic and all exist. -/
theorem confirmMax_drops_target :
    (∃ rank : BlockHash → Nat, ∀ h b, selfStore.getBlock h = some b →
      ∀ d ∈ b.dependentBlocks selfLedger.constants.epochs selfLedger.constants.genesisAccount,
        rank d < rank h) ∧
    (∀ h b, selfStore.getBlock h = some b →
      ∀ d ∈ b.dependentBlocks selfLedger.constants.epochs selfLedger.constants.genesisAccount,
        selfStore.blockExistsOrPruned d = true) ∧
    confirmMax selfLedger 8 selfStore (FixedBytes.ofNat 32 64) 2 =
      .ok ([sendS], cementBlock countingCrypto selfStore sendS) ∧
    (cementBlock countingCrypto selfStore sendS).confirmedBlockExistsOrPruned
      (FixedBytes.ofNat 32 64) = false :=
  ⟨⟨selfRank, selfStore_acyclic⟩, selfStore_dependencies_exist, by rfl, by decide⟩

end RsbanNode.Ledger
