import CharmRuntime.Reduction.Msg

/-!
# Reduction.UserFlag

**Whose user flag a reduction ends with**, over a tree of nested `reduceMessages` calls
(`ck-core/ckreduction.C`).

The flag of each combined message is that of the last message whose `userFlag` is not
`-1`. The field is unsigned and narrower than an `int`, so it never is: an unset flag
counts as one, and replaces a flag set before it. What the tree ends with is the flag of
one contribution, the last that is counted at every level (`decider`); `userFlag_iff`
says that it is this one, set or not.
-/

namespace CharmRuntime.Reduction

open Option

variable {δ : Type}

/-- Messages combined in a tree: a contribution (or a placeholder), or what
`reduceMessages` makes on PE `myPe` of the messages below, in queue order. -/
inductive CombineTree (δ : Type)
  | msg (m : CkReductionMsg δ)
  | node (myPe redNo : Nat) (queue : List (CombineTree δ))

mutual

/-- The message at the top of the tree. -/
def reduced [Inhabited δ] (env : ReductionEnv δ) : CombineTree δ → Option (CkReductionMsg δ)
  | .msg m => some m
  | .node myPe redNo queue => (reducedQueue env queue).bind (reduceMessages env myPe redNo)

def reducedQueue [Inhabited δ] (env : ReductionEnv δ) :
    List (CombineTree δ) → Option (List (CkReductionMsg δ))
  | [] => some []
  | t :: queue => do
      let m ← reduced env t
      let msgs ← reducedQueue env queue
      return m :: msgs

end

mutual

/-- The contributions and placeholders of the tree. -/
def contributions : CombineTree δ → List (CkReductionMsg δ)
  | .msg m => [m]
  | .node _ _ queue => queueContributions queue

def queueContributions : List (CombineTree δ) → List (CkReductionMsg δ)
  | [] => []
  | t :: queue => contributions t ++ queueContributions queue

end

/-- Behind `last`, a message that stands for the contribution `d` is counted, unless it is
of random type and not the first. -/
def counted (last d : Option (CkReductionMsg δ)) : Option (CkReductionMsg δ) :=
  match d with
  | none => last
  | some m => if last.isNone ∨ m.reducer ≠ .random then some m else last

mutual

/-- The last contribution that is counted at every level; none for placeholders only. -/
def decider : CombineTree δ → Option (CkReductionMsg δ)
  | .msg m => if m.sourceFlag = 0 then none else some m
  | .node _ _ queue => queueDecider none queue

def queueDecider (last : Option (CkReductionMsg δ)) :
    List (CombineTree δ) → Option (CkReductionMsg δ)
  | [] => last
  | t :: queue => queueDecider (counted last (decider t)) queue

end

/-- The contributions of one reduction with user flag `f`: some carry it, none of these is of
random type, and the others are unset. -/
structure Flagged (env : ReductionEnv δ) (f : Nat) (msgs : List (CkReductionMsg δ)) : Prop where
  set : f < 2 ^ env.refnumBits ∧ f ≠ env.refnum (-1)
  carried : ∃ m ∈ msgs, m.sourceFlag = -1 ∧ m.userFlag = f
  others : ∀ m ∈ msgs, (m.sourceFlag = -1 ∨ m.sourceFlag = 0) ∧
    (m.userFlag = f ∨ m.userFlag = env.refnum (-1))
  notRandom : ∀ m ∈ msgs, m.userFlag = f → m.reducer ≠ .random

/-! ### One pass over a queue -/

variable {env : ReductionEnv δ} {last d : Option (CkReductionMsg δ)} {r : CkReductionMsg δ}
  {c : Collected δ}

/-- Message `r` stands for contribution `d`. -/
structure StandsFor (env : ReductionEnv δ) (d : Option (CkReductionMsg δ)) (r : CkReductionMsg δ) :
    Prop where
  placeholder : r.sourceFlag = 0 ↔ d = none
  flag : ∀ m, d = some m → r.userFlag = m.userFlag ∧ m.userFlag < 2 ^ env.refnumBits
  reducer : ∀ m, d = some m → r.reducer = m.reducer

/-- The locals of `reduceMessages` when `last` was the last message counted. -/
structure Counts (env : ReductionEnv δ) (last : Option (CkReductionMsg δ)) (c : Collected δ) :
    Prop where
  first : c.msgArr = [] ↔ last = none
  nSources : 0 ≤ c.nSources ∧ (c.nSources = 0 ↔ last = none)
  unset : last = none → c.userFlag = -1 ∧ c.r = .invalid
  flag : ∀ m, last = some m → c.userFlag = m.userFlag ∧ m.userFlag < 2 ^ env.refnumBits
  reducer : ∀ m, last = some m → c.r = m.reducer

theorem counts_init : Counts env none (Collected.init env) where
  first := iff_of_true rfl rfl
  nSources := ⟨Int.le_refl 0, iff_of_true rfl rfl⟩
  unset _ := ⟨rfl, rfl⟩
  flag _ h := by cases h
  reducer _ h := by cases h

/-- An unsigned flag narrower than an `int` always counts as set. -/
theorem userFlagSet_of_narrow (hbits : env.refnumBits < 32) (f : Nat) :
    env.userFlagSet f = true := by
  unfold ReductionEnv.userFlagSet
  rw [if_pos hbits, bne_iff_ne]
  exact fun h => absurd (h ▸ Int.natCast_nonneg f) (by decide)

theorem Counts.collectMsg (hbits : env.refnumBits < 32) (h : Counts env last c)
    (hr : StandsFor env d r) :
    Counts env (counted last d) (collectMsg env c r) := by
  have hsum := collectMsg_nSources env c r
  have hnonneg := r.nSources_nonneg
  cases d with
  | none =>
    -- a placeholder
    have h0 : r.sourceFlag = 0 := hr.placeholder.mpr rfl
    have hstep : collectMsg env c r = { c with gcount := c.gcount + r.gcount } := by
      simp [collectMsg, h0]
    rw [hstep]
    exact ⟨h.first, h.nSources, h.unset, h.flag, h.reducer⟩
  | some m =>
    have hreal : r.sourceFlag ≠ 0 := fun h0 => some_ne_none m (hr.placeholder.mp h0)
    have hpos := CkReductionMsg.nSources_pos_of_isReal hreal
    have hn := h.nSources.1
    rw [counted, ← hr.reducer m rfl]
    by_cases hcount : last.isNone ∨ r.reducer ≠ .random
    · -- it replaces what was collected
      have hcond : c.msgArr = [] ∨ r.reducer ≠ .random := hcount.imp_left fun hnone =>
        h.first.mpr (isNone_iff_eq_none.mp hnone)
      rw [if_pos hcount]
      refine ⟨?_, ?_, fun hnone => ?_, ?_, ?_⟩
      · simp [collectMsg, hreal, hcond]
      · exact ⟨by omega, iff_of_false (by omega) (some_ne_none m)⟩
      · exact absurd hnone (some_ne_none m)
      · intro x hx
        cases hx
        obtain ⟨hflag, hlt⟩ := hr.flag m rfl
        refine ⟨?_, hlt⟩
        simp [collectMsg, hreal, hcond, userFlagSet_of_narrow hbits, hflag]
      · intro x hx
        cases hx
        simpa [collectMsg, hreal, hcond] using hr.reducer m rfl
    · -- a further message of random type only adds its sources
      have hcond : ¬ (c.msgArr = [] ∨ r.reducer ≠ .random) :=
        fun hc => hcount (hc.imp_left fun hempty =>
        isNone_iff_eq_none.mpr (h.first.mp hempty))
      have hstep : collectMsg env c r =
          { c with gcount := c.gcount + r.gcount, nSources := c.nSources + r.nSources } := by
        simp [collectMsg, hreal, hcond]
      have hlast : last ≠ none := fun hnone => hcount (.inl (isNone_iff_eq_none.mpr hnone))
      rw [if_neg hcount, hstep]
      refine ⟨h.first, ⟨Int.add_nonneg hn hnonneg, iff_of_false ?_ hlast⟩, h.unset,
        h.flag, h.reducer⟩
      exact Int.ne_of_gt (Int.add_pos_of_nonneg_of_pos hn hpos)

theorem combine_reducer [Inhabited δ] {keepSingle : ReducerType → Bool} (h : Counts env last c)
    (hc : combine env keepSingle c = some r) : r.reducer = c.r := by
  unfold combine at hc
  split at hc
  next hnil =>
    cases hc
    exact (h.unset (h.first.mp hnil)).2.symm
  next =>
    split at hc
    next hinvalid =>
      cases hc
      exact hinvalid.symm
    next =>
      obtain ⟨-, -, rfl⟩ := map_eq_some_iff.mp hc
      rfl

theorem refnum_of_lt {f : Nat} (h : f < 2 ^ env.refnumBits) : env.refnum f = f := by
  have hlt : (f : Int) < 2 ^ env.refnumBits := by exact_mod_cast h
  rw [ReductionEnv.refnum, Int.emod_eq_of_lt (Int.natCast_nonneg f) hlt, Int.toNat_natCast]

/-- What `reduceMessages` makes stands for the last message counted. -/
theorem reduceMessages_standsFor [Inhabited δ] {myPe redNo : Nat} {msgs : List (CkReductionMsg δ)}
    (h : Counts env last (collect env msgs)) (hr : reduceMessages env myPe redNo msgs = some r) :
    StandsFor env last r := by
  obtain ⟨ret, hret, rfl⟩ := map_eq_some_iff.mp hr
  refine ⟨h.nSources.2, fun m hm => ?_, fun m hm => ?_⟩
  · obtain ⟨hflag, hlt⟩ := h.flag m hm
    refine ⟨?_, hlt⟩
    rw [hflag]
    exact refnum_of_lt hlt
  · exact (combine_reducer h hret).trans (h.reducer m hm)

/-! ### The tree -/

mutual

/-- **The message at the top stands for the decider.** -/
theorem reduced_standsFor [Inhabited δ] (hbits : env.refnumBits < 32) :
    ∀ (t : CombineTree δ) (r : CkReductionMsg δ),
    (∀ m ∈ contributions t, m.userFlag < 2 ^ env.refnumBits) → reduced env t = some r →
    StandsFor env (decider t) r
  | .msg m, r, hflags, hr => by
      have hlt := hflags m (List.mem_singleton_self m)
      cases hr
      rw [decider]
      split
      next h0 => exact ⟨iff_of_true h0 rfl, fun x hx => absurd hx (some_ne_none x).symm,
          fun x hx => absurd hx (some_ne_none x).symm⟩
      next h0 =>
        refine ⟨iff_of_false h0 (some_ne_none m), fun x hx => ?_, fun x hx => ?_⟩
        · cases hx
          exact ⟨rfl, hlt⟩
        · cases hx
          rfl
  | .node myPe redNo queue, r, hflags, hr => by
      rw [reduced] at hr
      obtain ⟨msgs, hmsgs, hr⟩ := bind_eq_some_iff.mp hr
      exact reduceMessages_standsFor (queue_counts hbits queue msgs none _ hflags hmsgs counts_init)
        hr

theorem queue_counts [Inhabited δ] (hbits : env.refnumBits < 32) : ∀ (queue : List (CombineTree δ))
    (msgs : List (CkReductionMsg δ)) (last : Option (CkReductionMsg δ)) (c : Collected δ),
    (∀ m ∈ queueContributions queue, m.userFlag < 2 ^ env.refnumBits) →
    reducedQueue env queue = some msgs →
      Counts env last c → Counts env (queueDecider last queue) (msgs.foldl (collectMsg env) c)
  | [], msgs, last, c, _, hmsgs, hc => by
      cases hmsgs
      exact hc
  | t :: queue, msgs, last, c, hflags, hmsgs, hc => by
      rw [reducedQueue] at hmsgs
      obtain ⟨r, hr, hmsgs⟩ := bind_eq_some_iff.mp hmsgs
      obtain ⟨rest, hrest, hmsgs⟩ := bind_eq_some_iff.mp hmsgs
      cases hmsgs
      have hfirst :=
        reduced_standsFor hbits t r (fun m hm => hflags m (List.mem_append_left _ hm)) hr
      exact queue_counts hbits queue rest _ _ (fun m hm => hflags m (List.mem_append_right _ hm))
        hrest
        (hc.collectMsg hbits hfirst)

end

/-! ### Nothing else fails -/

/-- The reducers that are linked give a message for every list that is not empty. -/
def ReducersReturn (env : ReductionEnv δ) :
    Prop := ∀ reducer msgs, msgs ≠ [] → (env.reducerTable reducer msgs).isSome

theorem reducerArgs_ne_nil {m : CkReductionMsg δ} {rest : List (CkReductionMsg δ)}
    (h : rest = [] → m.reducer ≠ .random) :
    reducerArgs (m :: rest) ≠ [] := by
  unfold reducerArgs
  by_cases hrandom : m.reducer = .random
  · have hrest : rest ≠ [] := fun hnil => h hnil hrandom
    simp [hrandom, List.getLast?_eq_some_getLast hrest]
  · simp [hrandom]

theorem reduceMessages_isSome [Inhabited δ] (hreducers : ReducersReturn env) (myPe redNo : Nat)
    (msgs : List (CkReductionMsg δ)) :
    (reduceMessages env myPe redNo msgs).isSome := by
  rw [reduceMessages, isSome_map]
  unfold combine
  split
  next => rfl
  next m rest _ =>
    split
    next => rfl
    next =>
      rw [isSome_map]
      split
      next => rfl
      next hmany =>
        refine hreducers _ _ (reducerArgs_ne_nil fun hnil hrandom => hmany ⟨hnil, ?_⟩)
        rw [hrandom]
        rfl

mutual

theorem reduced_isSome [Inhabited δ] (hreducers : ReducersReturn env) :
    ∀ t : CombineTree δ, (reduced env t).isSome
  | .msg m => rfl
  | .node myPe redNo queue => by
      obtain ⟨msgs, hmsgs⟩ := isSome_iff_exists.mp (reducedQueue_isSome hreducers queue)
      rw [reduced, hmsgs]
      exact reduceMessages_isSome hreducers myPe redNo msgs

theorem reducedQueue_isSome [Inhabited δ] (hreducers : ReducersReturn env) :
    ∀ queue : List (CombineTree δ), (reducedQueue env queue).isSome
  | [] => rfl
  | t :: queue => by
      obtain ⟨m, hm⟩ := isSome_iff_exists.mp (reduced_isSome hreducers t)
      obtain ⟨msgs, hmsgs⟩ := isSome_iff_exists.mp (reducedQueue_isSome hreducers queue)
      rw [reducedQueue, hm, hmsgs]
      rfl

end

/-! ### The flag -/

theorem refnum_lt (x : Int) : env.refnum x < 2 ^ env.refnumBits := by
  have hpos : (0 : Int) < 2 ^ env.refnumBits := Int.pow_pos (by decide)
  have hlt := Int.emod_lt_of_pos x hpos
  have hnonneg := Int.emod_nonneg x (Int.ne_of_gt hpos)
  exact (Int.toNat_lt hnonneg).mpr (by exact_mod_cast hlt)

theorem Flagged.fits {f : Nat} {msgs : List (CkReductionMsg δ)} (h : Flagged env f msgs) :
    ∀ m ∈ msgs, m.userFlag < 2 ^ env.refnumBits := by
  intro m hm
  cases (h.others m hm).2 with
  | inl hset => exact hset ▸ h.set.1
  | inr hunset => exact hunset ▸ refnum_lt (-1)

theorem reduced_unset [Inhabited δ] (hbits : env.refnumBits < 32) {myPe redNo : Nat}
    {queue : List (CombineTree δ)}
    (hflags : ∀ m ∈ queueContributions queue, m.userFlag < 2 ^ env.refnumBits)
    (hr : reduced env (.node myPe redNo queue) = some r) (hnone : queueDecider none queue = none) :
    r.userFlag = env.refnum (-1) := by
  obtain ⟨msgs, hmsgs, hr⟩ := bind_eq_some_iff.mp hr
  have hc : Counts env _ (collect env msgs) :=
    queue_counts hbits queue msgs none _ hflags hmsgs counts_init
  obtain ⟨-, -, rfl⟩ := map_eq_some_iff.mp hr
  exact congrArg env.refnum (hc.unset hnone).1

/-- **The final message has the flag of the decider**, for every tree and every reducer: it
carries `f` exactly if the last contribution that is counted at every level carries `f`. -/
theorem userFlag_iff {δ : Type} [Inhabited δ] {env : ReductionEnv δ}
    (hbits : env.refnumBits < 32) {f : Nat}
    {myPe redNo : Nat} {queue : List (CombineTree δ)}
    (hflagged : Flagged env f (contributions (.node myPe redNo queue))) :
    (∀ r, reduced env (.node myPe redNo queue) = some r →
        (r.userFlag = f ↔ ∃ m, decider (.node myPe redNo queue) = some m ∧ m.userFlag = f)) ∧
      (ReducersReturn env → (reduced env (.node myPe redNo queue)).isSome) := by
  refine ⟨fun r hr => ?_, fun hreducers => reduced_isSome hreducers _⟩
  have hstands := reduced_standsFor hbits _ r hflagged.fits hr
  cases hd : decider (.node myPe redNo queue) with
  | none =>
    refine iff_of_false (fun heq => ?_) (fun h => by simp at h)
    exact hflagged.set.2 (heq.symm.trans (reduced_unset hbits hflagged.fits hr hd))
  | some m =>
    rw [(hstands.flag m hd).1]
    exact ⟨fun h => ⟨m, rfl, h⟩, fun ⟨x, hx, h⟩ => by cases hx; exact h⟩

/-- A contribution with a 16-bit flag. -/
def flaggedContribution (userFlag : Nat) : CkReductionMsg Nat :=
  { data := 1, userFlag, callback := none, secondaryCallback := none, migratableContributor := true,
    sourceFlag := -1, fromPE := 0, reducer := .sumInt, redNo := 0, gcount := 0 }

/-- A sum of numbers, with 16-bit flags. -/
def sumEnv : ReductionEnv Nat where
  refnumBits := 16
  reducerTable _ msgs := msgs.head?.map fun m => { m with data := (msgs.map (·.data)).sum }
  uninitMigratable := false

theorem flagged_pair {a b : Nat} (h : a = 7 ∧ b = 65535 ∨ a = 65535 ∧ b = 7) :
    Flagged sumEnv 7
      (contributions (.node 0 0 [.msg (flaggedContribution a), .msg (flaggedContribution b)])) := by
  have hunset : sumEnv.refnum (-1) = 65535 := by decide
  rcases h with ⟨rfl, rfl⟩ | ⟨rfl, rfl⟩
  · refine ⟨by decide, by decide, ?_, ?_⟩ <;>
      simp [contributions, queueContributions, flaggedContribution, hunset]
  · refine ⟨by decide, by decide, ?_, ?_⟩ <;>
      simp [contributions, queueContributions, flaggedContribution, hunset]

/-- The flagged contribution comes last in the queue. -/
theorem userFlag_iff_flaggedLast :
    (∀ r, reduced sumEnv
      (.node 0 0 [.msg (flaggedContribution 65535), .msg (flaggedContribution 7)]) = some r →
        (r.userFlag = 7 ↔
        ∃ m, decider (.node 0 0 [.msg (flaggedContribution 65535), .msg (flaggedContribution 7)]) =
        some m ∧
          m.userFlag = 7)) ∧
      (ReducersReturn sumEnv →
        (reduced sumEnv
          (.node 0 0 [.msg (flaggedContribution 65535), .msg (flaggedContribution 7)])).isSome) :=
  userFlag_iff (by decide) (flagged_pair (.inr ⟨rfl, rfl⟩))

/-- Behind the flagged contribution comes one with an unset flag, and the flag is lost. -/
theorem not_userFlag_unsetLast :
    ¬ (Flagged sumEnv 7
      (contributions (.node 0 0 [.msg (flaggedContribution 7), .msg (flaggedContribution 65535)])) →
      ∃ r, reduced sumEnv
        (.node 0 0 [.msg (flaggedContribution 7), .msg (flaggedContribution 65535)]) = some r ∧
        r.userFlag = 7) := by
  intro h
  obtain ⟨r, hr, hflag⟩ := h (flagged_pair (.inl ⟨rfl, rfl⟩))
  have hlost :
    (reduced sumEnv
      (.node 0 0 [.msg (flaggedContribution 7), .msg (flaggedContribution 65535)])).map
      (·.userFlag) = some 65535 := by decide
  rw [hr, map_some, hflag] at hlost
  cases hlost

end CharmRuntime.Reduction
