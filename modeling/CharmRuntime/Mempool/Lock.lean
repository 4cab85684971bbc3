import CharmRuntime.Mempool.PoolSound

/-!
# Mempool.Lock

The **lock of a pool**, in a build with `CMK_USE_MEMPOOL_ISOMALLOC`. `mempool_malloc` takes the lock
and gives it back behind the last slot that it takes; none of the exits with NULL gives it back. A
call waits while the lock is held, so that it does not start here.

Which calls return NULL can be said before the call (`HasSlot`, `Expands`). The rest of the pool is
as it should be also after a failed call (`PoolKept`): the allocations, their slots and the lists.
-/

namespace CharmRuntime.Mempool

open Lib List Except Prod

/-! ### The calls -/

/-- `mempool_malloc(mptr, size, expand)`, with `mempoolLock` as it is at the exit. -/
def mempoolMallocLocked (pool : MempoolType) (size : Nat) (expand : Bool)
    (answer : Option (Int × Nat)) :
    Except MempoolFault (Allocated × Bool) :=
  -- behind `CmiLock`
  let mempoolLock := true
  let power := whichPow2 (size + sizeofUsedHeader)
  if power = cutOffNum then .error .abort
  else do
    let (pool, found) ← findBlock power (pool.size + 1) 0 pool
    match found with
    | some current =>
      let (pool, ptr) := takeSlot pool current power
      -- `CmiUnlock`
      .ok ({ pool := pool, given := [], added := none, ptr := some ptr }, !mempoolLock)
    | none =>
      if !expand then .ok ({ pool := pool, given := [], added := none, ptr := none }, mempoolLock)
      else do
        let (pool, given) ← beforeExpansion pool
        if 2 ^ 31 ≤ 2 * cutOff power then .error .overflow
        else
          match answer with
          | none => .ok ({ pool := pool, given := given, added := none, ptr := none }, mempoolLock)
          | some (current, expandSize) => do
              let pool ← fillblock (appendBlock pool current expandSize) current expandSize true
              let (pool, found) := checkblock pool current power
              if found then
                let (pool, ptr) := takeSlot pool current power
                .ok ({ pool := pool, given := given, added := answer, ptr := some ptr },
                !mempoolLock)
              else .ok ({ pool := pool, given := given, added := answer, ptr := none }, mempoolLock)

/-- `mempool_free_thread`, which gets the lock first. -/
def mempoolFreeThread (pool : MempoolType) (ptrFree : Int) :
    Except MempoolFault (MempoolType × Bool) := do
  let mempoolLock := true
  let pool ← mempoolFree pool ptrFree
  .ok (pool, !mempoolLock)

structure LockedWorld where
  world : MempoolWorld
  mempoolLock : Bool

/-- As `MempoolEvent`, with the pointer that `mempool_malloc` returns. -/
inductive LockedEvent
  | malloc (size : Nat) (expand : Bool) (answer : Option (Int × Nat)) (ptr : Option Int)
  | free (k : Nat)
  | write (k : Nat) (slots : Slots)

/-- The world behind a call of `mempool_malloc`. -/
def MempoolWorld.allocated (w : MempoolWorld) (size : Nat) (r : Allocated) : MempoolWorld where
  pool := r.pool
  owned := w.owned.filter (·.1 ∉ r.given) ++ r.added.toList
  live := r.ptr.toList.map (fun ptr => { ptr := ptr, size := size }) ++ w.live
  given := w.given ++ r.given.map fun b => (b, w.live.filter (·.inBlock b (w.pool.blocks b).size))

/-- The runs of a pool with its lock. `newblockfn` may return a block of any size. -/
def lockedSystem (poolSize limit : Nat) : Transition LockedWorld LockedEvent where
  init s := (mempoolSystem poolSize limit).init s.world ∧ s.mempoolLock = false
  step s e s' :=
    s'.world.owned.Pairwise Apart ∧
    match e with
    | .malloc size expand answer ptr => s.mempoolLock = false ∧ ∃ r,
        mempoolMallocLocked s.world.pool size expand answer = .ok (r, s'.mempoolLock) ∧
        r.ptr = ptr ∧
          s'.world = s.world.allocated size r
    | .free k => s.mempoolLock = false ∧ ∃ a pool, s.world.live[k]? = some a ∧
        mempoolFreeThread s.world.pool a.ptr = .ok (pool, s'.mempoolLock) ∧
          s'.world = { s.world with pool := pool, live := s.world.live.eraseIdx k }
    | .write k slots => s.world.Enabled (.write k slots) ∧ s'.mempoolLock = s.mempoolLock ∧
        s'.world = { s.world with pool := { s.world.pool with slots := slots } }

/-- The exits of `mempool_malloc`. -/
inductive MallocExit (pool : MempoolType) (power : Nat) :
    Bool → Option (Int × Nat) → Allocated → Bool → Prop
  | found {expand : Bool} {answer : Option (Int × Nat)} {pool₁ : MempoolType} {c : Int}
      (hfind : findBlock power (pool.size + 1) 0 pool = .ok (pool₁, some c)) :
      MallocExit pool power expand answer
        { pool := (takeSlot pool₁ c power).1, given := [], added := none, ptr := some (takeSlot
          pool₁ c power).2 } false
  | unexpanded {answer : Option (Int × Nat)} {pool₁ : MempoolType}
      (hfind : findBlock power (pool.size + 1) 0 pool = .ok (pool₁, none)) :
      MallocExit pool power false answer { pool := pool₁, given := [], added := none, ptr := none }
        true
  | noBlock {pool₁ pool₂ : MempoolType} {given : List Int}
      (hfind : findBlock power (pool.size + 1) 0 pool = .ok (pool₁, none))
      (hbefore : beforeExpansion pool₁ = .ok (pool₂, given)) :
      MallocExit pool power true none { pool := pool₂, given := given, added := none, ptr := none }
        true
  | expanded {pool₁ pool₂ pool₃ pool₄ : MempoolType} {given : List Int} {d : Int × Nat}
      (hfind : findBlock power (pool.size + 1) 0 pool = .ok (pool₁, none))
      (hbefore : beforeExpansion pool₁ = .ok (pool₂, given))
      (hfill : fillblock (appendBlock pool₂ d.1 d.2) d.1 d.2 true = .ok pool₃)
      (hcheck : checkblock pool₃ d.1 power = (pool₄, true)) :
      MallocExit pool power true (some d)
        { pool := (takeSlot pool₄ d.1 power).1, given := given, added := some d
          ptr := some (takeSlot pool₄ d.1 power).2 } false
  | tooSmall {pool₁ pool₂ pool₃ pool₄ : MempoolType} {given : List Int} {d : Int × Nat}
      (hfind : findBlock power (pool.size + 1) 0 pool = .ok (pool₁, none))
      (hbefore : beforeExpansion pool₁ = .ok (pool₂, given))
      (hfill : fillblock (appendBlock pool₂ d.1 d.2) d.1 d.2 true = .ok pool₃)
      (hcheck : checkblock pool₃ d.1 power = (pool₄, false)) :
      MallocExit pool power true (some d)
      { pool := pool₄, given := given, added := some d, ptr := none } true

variable {pool : MempoolType} {expand : Bool} {answer : Option (Int × Nat)} {r : Allocated}
  {lock : Bool} {pool' : MempoolType} {b : Int} {power : Nat} {given : List Int}
  {poolSize limit : Nat} {s : LockedWorld}

theorem mallocExit_of_ok {size : Nat}
    (hrun : mempoolMallocLocked pool size expand answer = .ok (r, lock)) :
    whichPow2 (size + sizeofUsedHeader) < cutOffNum ∧
      MallocExit pool (whichPow2 (size + sizeofUsedHeader)) expand answer r lock := by
  unfold mempoolMallocLocked at hrun
  have hle := whichPow2_le (size + sizeofUsedHeader)
  generalize whichPow2 (size + sizeofUsedHeader) = power at *
  by_cases hpower : power = cutOffNum
  · rw [if_pos hpower] at hrun
    cases hrun
  · rw [if_neg hpower] at hrun
    refine ⟨lt_of_le_of_ne hle hpower, ?_⟩
    obtain ⟨⟨pool₁, found⟩, hfind, hrun⟩ := bind_eq_ok.mp hrun
    cases found with
    | some c =>
      obtain ⟨rfl, rfl⟩ := mk.inj (ok.inj hrun)
      exact .found hfind
    | none =>
      cases expand with
      | false =>
        obtain ⟨rfl, rfl⟩ := mk.inj (ok.inj hrun)
        exact .unexpanded hfind
      | true =>
        obtain ⟨⟨pool₂, given⟩, hbefore, hrun⟩ := bind_eq_ok.mp hrun
        simp only at hrun
        split at hrun
        · cases hrun
        · cases answer with
          | none =>
            obtain ⟨rfl, rfl⟩ := mk.inj (ok.inj hrun)
            exact .noBlock hfind hbefore
          | some d =>
            obtain ⟨pool₃, hfill, hrun⟩ := bind_eq_ok.mp hrun
            obtain ⟨⟨pool₄, fits⟩, hcheck⟩ : ∃ p, checkblock pool₃ d.1 power = p := ⟨_, rfl⟩
            simp only [hcheck] at hrun
            cases fits with
            | true =>
              obtain ⟨rfl, rfl⟩ := mk.inj (ok.inj hrun)
              exact .expanded hfind hbefore hfill hcheck
            | false =>
              obtain ⟨rfl, rfl⟩ := mk.inj (ok.inj hrun)
              exact .tooSmall hfind hbefore hfill hcheck

/-! ### Which calls return NULL -/

/-- The block has a free slot of this class or a larger one. -/
def HasClass (pool : MempoolType) (b : Int) (power : Nat) : Prop :=
  ∃ i, power ≤ i ∧ i < cutOffNum ∧ (pool.blocks b).freelists i ≠ 0

/-- The block at `c` follows the one at `b` in the list. -/
def NextBlock (pool : MempoolType) (b c : Int) : Prop := (pool.blocks b).blockNext = c ∧ c ≠ 0

/-- A block of the list has a free slot of this class or a larger one. -/
def HasSlot (pool : MempoolType) (power : Nat) : Prop :=
  ∃ b, Relation.ReflTransGen (NextBlock pool) 0 b ∧ HasClass pool b power

/-- A new block is asked for, and the one that comes has room for a slot of this class. -/
def Expands (power : Nat) (expand : Bool) (answer : Option (Int × Nat)) : Prop :=
  expand = true ∧ ∃ d ∈ answer, sizeofBlockHeader + cutOff power ≤ d.2

theorem splitLists_of_lt (n i power : Nat) (hlt : power < i) (loc : Int) (freelists : Nat → Int) :
    splitLists n i loc freelists power = freelists power := by
  induction n generalizing i loc freelists with
  | zero => rfl
  | succ n ih =>
    rw [splitLists, ih (i + 1) (Nat.lt_succ_of_lt hlt)]
    exact Function.update_of_ne (ne_of_lt hlt) _ _

theorem splitSlot_head (pool : MempoolType) (b : Int) (power powiter : Nat) :
    ((splitSlot pool b power powiter).blocks b).freelists power =
    (pool.blocks b).freelists powiter := by
  unfold splitSlot
  simp only [Function.update_self]
  rw [splitLists_of_lt _ _ _ (Nat.lt_succ_self power)]
  exact Function.update_self _ _ _

theorem splitFrom_head (pool : MempoolType) (b : Int) (power n powiter : Nat)
    (hend : powiter + n = cutOffNum) :
    ((∃ i, powiter ≤ i ∧ i < cutOffNum ∧ (pool.blocks b).freelists i ≠ 0) ∧
      ((splitFrom b power n powiter pool).blocks b).freelists power ≠ 0) ∨
    ((∀ i, powiter ≤ i → i < cutOffNum → (pool.blocks b).freelists i = 0) ∧
      splitFrom b power n powiter pool = pool) := by
  induction n generalizing powiter with
  | zero => exact .inr ⟨fun i hlow hhigh => absurd hhigh (by omega), rfl⟩
  | succ n ih =>
    rw [splitFrom]
    by_cases hhead : (pool.blocks b).freelists powiter = 0
    · rw [if_neg (not_not.mpr hhead)]
      obtain ⟨⟨i, hlow, hhigh, hne⟩, hfound⟩ | ⟨hnone, hsame⟩ := ih (powiter + 1) (by omega)
      · exact .inl ⟨⟨i, by omega, hhigh, hne⟩, hfound⟩
      · refine .inr ⟨fun i hlow hhigh => ?_, hsame⟩
        obtain rfl | hlt := eq_or_lt_of_le hlow
        · exact hhead
        · exact hnone i hlt hhigh
    · rw [if_pos hhead]
      refine .inl ⟨⟨powiter, le_refl _, by omega, hhead⟩, ?_⟩
      rw [splitSlot_head]
      exact hhead

/-- What `checkblock` finds, and that it leaves the block alone if it finds nothing. -/
theorem checkblock_found {found : Bool}
    (hpower : power < cutOffNum) (hcheck : checkblock pool b power = (pool', found)) :
    (found = true ↔ HasClass pool b power) ∧ (found = false → pool' = pool) := by
  obtain ⟨hpool, hfound⟩ := mk.inj hcheck
  rw [hpool] at hfound
  subst hfound
  by_cases hhead : (pool.blocks b).freelists power = 0
  · rw [if_neg (not_not.mpr hhead)] at hpool
    obtain ⟨⟨i, hlow, hhigh, hne⟩, hfound⟩ | ⟨hnone, hsame⟩ :=
      splitFrom_head pool b power (cutOffNum - (power + 1)) (power + 1) (by omega)
    · rw [hpool] at hfound
      simp only [hfound, ne_eq, not_false_eq_true, decide_true, true_iff, Bool.true_eq_false,
        false_implies, and_true]
      exact ⟨i, by omega, hhigh, hne⟩
    · have heq : pool' = pool := hpool.symm.trans hsame
      rw [heq]
      simp only [hhead, ne_eq, not_true_eq_false, decide_false, Bool.false_eq_true, false_iff,
        implies_true, and_true]
      rintro ⟨i, hlow, hhigh, hne⟩
      obtain rfl | hlt := eq_or_lt_of_le hlow
      · exact hne hhead
      · exact hne (hnone i hlt hhigh)
  · rw [if_pos hhead] at hpool
    subst hpool
    simp only [hhead, ne_eq, not_false_eq_true, decide_true, true_iff, Bool.true_eq_false,
      false_implies, and_true]
    exact ⟨power, le_refl _, hpower, hhead⟩

theorem findBlock_found {fuel : Nat} {found : Option Int}
    (hpower : power < cutOffNum) (hfind : findBlock power fuel b pool = .ok (pool', found)) :
    (found = none → pool' = pool ∧ ∀ c, Relation.ReflTransGen (NextBlock pool) b c →
    ¬ HasClass pool c power) ∧
    (found ≠ none → ∃ c, Relation.ReflTransGen (NextBlock pool) b c ∧ HasClass pool c power) := by
  induction fuel generalizing b with
  | zero => cases hfind
  | succ fuel ih =>
    rw [findBlock] at hfind
    obtain ⟨⟨pool₁, fits⟩, hcheck⟩ : ∃ p, checkblock pool b power = p := ⟨_, rfl⟩
    obtain ⟨hfits, hsame⟩ := checkblock_found hpower hcheck
    simp only [hcheck] at hfind
    cases fits with
    | true =>
      obtain ⟨rfl, rfl⟩ := mk.inj (ok.inj hfind)
      exact ⟨fun hnone => absurd hnone (Option.some_ne_none _), fun _ => ⟨b, .refl, hfits.mp rfl⟩⟩
    | false =>
      obtain rfl := hsame rfl
      have hno : ¬ HasClass pool₁ b power := fun hhas => Bool.false_ne_true (hfits.mpr hhas)
      by_cases hnext : (pool₁.blocks b).blockNext = 0
      · rw [if_pos hnext] at hfind
        obtain ⟨rfl, rfl⟩ := mk.inj (ok.inj hfind)
        refine ⟨fun _ => ⟨rfl, fun c hpath => ?_⟩, fun hne => absurd rfl hne⟩
        obtain rfl | ⟨d, hbd, -⟩ := hpath.cases_head
        · exact hno
        · exact absurd (hbd.1.symm.trans hnext) hbd.2
      · rw [if_neg hnext] at hfind
        obtain ⟨hnone, hsome⟩ := ih hfind
        refine ⟨fun hfound => ⟨(hnone hfound).1, fun c hpath => ?_⟩, fun hfound => ?_⟩
        · obtain rfl | ⟨d, hbd, hdc⟩ := hpath.cases_head
          · exact hno
          · exact (hnone hfound).2 c (hbd.1 ▸ hdc)
        · obtain ⟨c, hpath, hhas⟩ := hsome hfound
          exact ⟨c, .head ⟨rfl, hnext⟩ hpath, hhas⟩

theorem size_of_fillblock {n : Nat} (hfill : fillblock pool b n true = .ok pool') :
    sizeofBlockHeader + 64 ≤ n ∧ n ≤ sizeofBlockHeader + 2 ^ 30 := by
  unfold fillblock at hfill
  simp only [if_true] at hfill
  split at hfill
  · cases hfill
  · rename_i hfits
    have hpow : whichPow2 (n - sizeofBlockHeader) < cutOffNum :=
      lt_of_le_of_ne (whichPow2_le _) fun heq => hfits (.inr heq)
    have hcut := le_cutOff_whichPow2 hpow
    have hlast := cutOff_le (by decide) (Nat.le_of_lt_succ hpow)
    rw [show cutOff 24 = 2 ^ 30 from rfl] at hlast
    refine ⟨?_, by omega⟩
    by_contra hsmall
    have hzero : whichPow2 (n - sizeofBlockHeader) = 0 := by
      by_contra hne
      have hlt := cutOff_lt_of_lt_whichPow2 (pos_of_ne_zero hne)
      rw [show cutOff 0 = 64 from rfl] at hlt
      omega
    -- no class fits, and the loop over the headers has nothing to write
    rw [hzero, show cutOff 0 = 64 from rfl,
      if_pos (show n - sizeofBlockHeader < 64 by omega)] at hfill
    cases hfill

theorem hasClass_fillblock {d : Int × Nat} (hpower : power < cutOffNum)
    (hplace : 0 < d.1 + sizeofBlockHeader ∨ d.1 + d.2 ≤ 0)
    (hfill : fillblock (appendBlock pool d.1 d.2) d.1 d.2 true = .ok pool') :
    HasClass pool' d.1 power ↔ sizeofBlockHeader + cutOff power ≤ d.2 := by
  have hheader : headerSize true = sizeofBlockHeader := rfl
  obtain ⟨hlow, hhigh⟩ := size_of_fillblock hfill
  obtain ⟨pool₁, hfill', hblock, -⟩ :=
    @fillblock_spec _ d.1 d.2 true hlow hhigh hplace (appendBlock_self pool d.1 d.2).2.1
  obtain rfl := ok.inj (hfill'.symm.trans hfill)
  obtain ⟨lists, hfree, hmem⟩ := hblock.lists
  have hle : d.2 - headerSize true ≤ 2 ^ 30 := by omega
  constructor
  · rintro ⟨i, hpi, hi, hne⟩
    have hbounds := place_bounds ((hmem i _).mp (hfree.head_mem hne))
    have hbytes := (freshTiles_spec hle).2.1
    have hcut := cutOff_le hi hpi
    simp only at hbounds
    omega
  · intro _
    obtain ⟨i, hpi, hi, htile⟩ := exists_freshTiles hle hpower (by omega)
    obtain ⟨l1, l2, hsplit⟩ := append_of_mem htile
    refine ⟨i, hpi, hi, fun hnull => ?_⟩
    have hin :=
      (hmem i (d.1 + headerSize true + (tileBytes l1))).mpr (by rw [hsplit]; exact mem_place_middle)
    rw [hfree.head_eq_null.mp hnull] at hin
    exact absurd hin not_mem_nil

theorem removeLoop_keeps {tail prev current : Int} {fuel : Nat}
    (hrun : removeLoop tail fuel prev current pool = .ok (pool', given)) :
    pool'.slots = pool.slots ∧ (0 : Int) ∉ given := by
  induction fuel generalizing prev current pool pool' given with
  | zero => cases hrun
  | succ fuel ih =>
    rw [removeLoop] at hrun
    by_cases hend : current = 0
    · rw [if_pos hend] at hrun
      obtain ⟨rfl, rfl⟩ := mk.inj (ok.inj hrun)
      exact ⟨rfl, not_mem_nil⟩
    · rw [if_neg hend] at hrun
      by_cases hidle : (pool.blocks current).used ≤ 0
      · simp only [if_pos hidle] at hrun
        by_cases hlimit : pool.size - (pool.blocks current).size < pool.limit
        · rw [if_pos hlimit] at hrun
          obtain ⟨rfl, rfl⟩ := mk.inj (ok.inj hrun)
          exact ⟨rfl, fun hmem => hend (mem_singleton.mp hmem).symm⟩
        · rw [if_neg hlimit] at hrun
          obtain ⟨⟨pool₁, rest⟩, hrest, hrun⟩ := bind_eq_ok.mp hrun
          obtain ⟨rfl, rfl⟩ := mk.inj (ok.inj hrun)
          obtain ⟨hslots, hzero⟩ := ih hrest
          exact ⟨hslots, fun hmem => (mem_cons.mp hmem).elim (fun heq => hend heq.symm) hzero⟩
      · simp only [if_neg hidle] at hrun
        exact ih hrun

theorem beforeExpansion_keeps
    (hrun : beforeExpansion pool = .ok (pool', given)) :
    pool'.slots = pool.slots ∧ (0 : Int) ∉ given := by
  rw [beforeExpansion] at hrun
  split at hrun
  · exact removeLoop_keeps hrun
  · obtain ⟨rfl, rfl⟩ := mk.inj (ok.inj hrun)
    exact ⟨rfl, not_mem_nil⟩

theorem MallocExit.zero_notMem (h : MallocExit pool power expand answer r lock) :
    (0 : Int) ∉ r.given := by
  cases h with
  | found _ => exact not_mem_nil
  | unexpanded _ => exact not_mem_nil
  | noBlock _ hbefore => exact (beforeExpansion_keeps hbefore).2
  | expanded _ hbefore _ _ => exact (beforeExpansion_keeps hbefore).2
  | tooSmall _ hbefore _ _ => exact (beforeExpansion_keeps hbefore).2

theorem owned_first (hrun : (lockedSystem poolSize limit).Reachable s) :
    ∃ rest, s.world.owned = (0, poolSize) :: rest := by
  refine hrun.invariant (I := fun s => ∃ rest, s.world.owned = (0, poolSize) :: rest) ?_ ?_
  · rintro s ⟨⟨slots, -, pool, -, hworld⟩, -⟩
    exact ⟨[], by rw [hworld]⟩
  · rintro s e s' ⟨rest, howned⟩ ⟨-, hstep⟩
    cases e with
    | malloc size expand answer ptr =>
      obtain ⟨-, r, hcall, -, hworld⟩ := hstep
      have hzero := (mallocExit_of_ok hcall).2.zero_notMem
      refine ⟨rest.filter (·.1 ∉ r.given) ++ r.added.toList, ?_⟩
      rw [hworld, MempoolWorld.allocated, howned, filter_cons_of_pos (by simpa using hzero),
        cons_append]
    | free k =>
      obtain ⟨-, a, pool, -, -, hworld⟩ := hstep
      exact ⟨rest, by rw [hworld]; exact howned⟩
    | write k slots =>
      obtain ⟨-, -, hworld⟩ := hstep
      exact ⟨rest, by rw [hworld]; exact howned⟩

theorem MallocExit.lock_iff (h : MallocExit pool power expand answer r lock) :
    lock = true ↔ r.ptr = none := by
  cases h <;> simp

theorem MallocExit.ptr_iff (h : MallocExit pool power expand answer r lock)
    (hpower : power < cutOffNum)
    (hplace : ∀ d ∈ r.added, 0 < d.1 + sizeofBlockHeader ∨ d.1 + d.2 ≤ 0) :
    r.ptr ≠ none ↔ HasSlot pool power ∨ Expands power expand answer := by
  have hdry : ∀ {pool₁}, findBlock power (pool.size + 1) 0 pool = .ok (pool₁, none) →
    ¬ HasSlot pool power := by
    rintro pool₁ hfind ⟨b, hpath, hhas⟩
    exact ((findBlock_found hpower hfind).1 rfl).2 b hpath hhas
  cases h with
  | found hfind =>
    have hslot : HasSlot pool power := (findBlock_found hpower hfind).2 (Option.some_ne_none _)
    simp [hslot]
  | unexpanded hfind => simp [hdry hfind, Expands]
  | noBlock hfind hbefore => simp [hdry hfind, Expands]
  | expanded hfind hbefore hfill hcheck =>
    have hfits :=
      (hasClass_fillblock hpower (hplace _ rfl) hfill).mp
        ((checkblock_found hpower hcheck).1.mp rfl)
    simp [Expands, hfits]
  | tooSmall hfind hbefore hfill hcheck =>
    have hno := mt (checkblock_found hpower hcheck).1.mpr Bool.false_ne_true
    rw [hasClass_fillblock hpower (hplace _ rfl) hfill] at hno
    simp [hdry hfind, Expands, hno]

/-! ### What a failed call leaves -/

/-- The allocations and their slots are as before, and all lists are in order. -/
structure PoolKept (w w' : MempoolWorld) : Prop where
  live : w'.live = w.live
  slots : ∀ a ∈ w.live, w'.pool.slots (a.ptr - sizeofUsedHeader) =
    w.pool.slots (a.ptr - sizeofUsedHeader)
  inside : ∀ a ∈ w.live, ∃ c ∈ w'.owned, a.inBlock c.1 c.2 = true
  linked : WellLinked w'
  tiled : ∃ tiles, Tiled tiles w'

/-- **A failed call keeps the lock.** It leaves the pool usable only if it does not fail: a block of
the list has a slot, or a new block with room for one is got. -/
theorem failed_malloc_iff {poolSize limit : Nat} {s s' : LockedWorld} {size : Nat} {expand : Bool}
    {answer : Option (Int × Nat)} {ptr : Option Int}
    (hrun : (lockedSystem poolSize limit).Reachable s)
    (hstep : (lockedSystem poolSize limit).step s (.malloc size expand answer ptr) s') :
    (ptr = none → s'.mempoolLock = false ∧ PoolKept s.world s'.world) ↔
      HasSlot s.world.pool (whichPow2 (size + sizeofUsedHeader)) ∨
        Expands (whichPow2 (size + sizeofUsedHeader)) expand answer := by
  obtain ⟨rest, howned⟩ := owned_first hrun
  obtain ⟨hapart, -, r, hcall, rfl, hworld⟩ := hstep
  obtain ⟨hpower, hexit⟩ := mallocExit_of_ok hcall
  have hplace : ∀ d ∈ r.added, 0 < d.1 + sizeofBlockHeader ∨ d.1 + d.2 ≤ 0 := by
    intro d hd
    have hfirst : (0, poolSize) ∈ s.world.owned.filter (·.1 ∉ r.given) := by
      rw [howned]
      exact mem_filter.mpr ⟨mem_cons_self, decide_eq_true hexit.zero_notMem⟩
    rw [hworld] at hapart
    have hcd : Apart (0, poolSize) d :=
      (pairwise_append.mp hapart).2.2 _ hfirst d (Option.mem_toList.mpr hd)
    have hheader : sizeofBlockHeader = 256 := rfl
    obtain hle | hle := hcd
    · omega
    · exact .inr hle
  rw [← hexit.ptr_iff hpower hplace]
  constructor
  · intro hkept hnull
    have hheld := hexit.lock_iff.mpr hnull
    rw [(hkept hnull).1] at hheld
    cases hheld
  · exact fun hne hnull => absurd hnull hne

/-- The state behind a call of `mempool_malloc`. -/
def LockedWorld.afterMalloc (s : LockedWorld) (size : Nat) (expand : Bool)
    (answer : Option (Int × Nat)) :
    LockedWorld :=
  match mempoolMallocLocked s.world.pool size expand answer with
  | .ok (r, lock) => { world := s.world.allocated size r, mempoolLock := lock }
  | .error _ => s

/-- What the call returns. -/
def LockedWorld.returned (s : LockedWorld) (size : Nat) (expand : Bool)
    (answer : Option (Int × Nat)) :
    Option (Option Int) :=
  match mempoolMallocLocked s.world.pool size expand answer with
  | .ok (r, _) => some r.ptr
  | .error _ => none

theorem LockedWorld.step_afterMalloc {size : Nat} {ptr : Option Int} (hfree : s.mempoolLock = false)
    (hreturned : s.returned size expand answer = some ptr)
    (hapart : (s.afterMalloc size expand answer).world.owned.Pairwise Apart) :
    (lockedSystem poolSize limit).step s (.malloc size expand answer ptr)
      (s.afterMalloc size expand answer) := by
  refine ⟨hapart, hfree, ?_⟩
  unfold afterMalloc
  unfold returned at hreturned
  cases hrun : mempoolMallocLocked s.world.pool size expand answer with
  | error f =>
    rw [hrun] at hreturned
    cases hreturned
  | ok p =>
    rw [hrun] at hreturned
    exact ⟨p.1, rfl, Option.some.inj hreturned, rfl⟩

/-- A pool with one slot of 64 bytes and its lock. -/
def lockedSlot : LockedWorld := { world := oneSlot 0, mempoolLock := false }

theorem lockedSlot_reachable : (lockedSystem 368 0).Reachable lockedSlot :=
  .init ⟨oneSlot_init 0, rfl⟩

theorem failed_malloc_one_slot :
    (∃ s', (lockedSystem 368 0).step lockedSlot (.malloc 8 false none (some 336)) s') ∧
      HasSlot lockedSlot.world.pool (whichPow2 (8 + sizeofUsedHeader)) := by
  have hstep : (lockedSystem 368 0).step lockedSlot (.malloc 8 false none (some 336))
      (lockedSlot.afterMalloc 8 false none) :=
    LockedWorld.step_afterMalloc rfl (by decide +kernel) (by decide +kernel)
  refine ⟨⟨_, hstep⟩, ?_⟩
  have hiff := failed_malloc_iff lockedSlot_reachable hstep
  exact (hiff.mp fun hnull => absurd hnull (Option.some_ne_none _)).resolve_right fun hexp => by
    cases hexp.1

/-- A request of 100 bytes does not fit, and the lock stays held. -/
theorem not_unlocked :
    ¬ ∀ s', (lockedSystem 368 0).step lockedSlot (.malloc 100 false none none) s' →
    s'.mempoolLock = false ∧ PoolKept lockedSlot.world s'.world := by
  intro hclaim
  have hstep : (lockedSystem 368 0).step lockedSlot (.malloc 100 false none none)
      (lockedSlot.afterMalloc 100 false none) :=
    LockedWorld.step_afterMalloc rfl (by decide +kernel) (by decide +kernel)
  have hheld : (lockedSlot.afterMalloc 100 false none).mempoolLock = true := by decide +kernel
  rw [(hclaim _ hstep).1] at hheld
  cases hheld

end CharmRuntime.Mempool
