import CharmRuntime.Sdag.Dependency

/-!
# Sdag.Matching

When `tryFindContinuation` is right. In every reachable state the buffered messages are different
objects (`World.Inv`), so that a continuation is satisfiable if and only if there are as many
messages as it needs (`satisfiable_iff_ample`). The search finds the first continuation that is
ready (`tryFindContinuation_eq`), which is what it should do if and only if this one is ample.
-/

namespace CharmRuntime.Sdag

open Lib List

variable {numEntries numWhens : Nat}

/-! ### The state -/

structure World.Inv (w : World numEntries numWhens) : Prop where
  whenID : ∀ whenID, ∀ c ∈ w.dep.whenToContinuation whenID, c.whenID = whenID
  entry : ∀ entry, ∀ buf ∈ w.dep.buffer entry, buf.entry = entry
  allocated : ∀ entry, ∀ buf ∈ w.dep.buffer entry, buf.obj < w.allocated
  nodup : ∀ entry, (w.dep.buffer entry).Nodup

theorem forall_update {α β : Type} [DecidableEq α] {P : α → List β → Prop} {f : α → List β} {a : α}
    {l : List β}
    (hl : P a l) (h : ∀ a', P a' (f a')) (a' : α) : P a' (Function.update f a l a') := by
  by_cases ha : a' = a
  · subst ha
    rw [Function.update_self]
    exact hl
  · rw [Function.update_of_ne ha]
    exact h a'

namespace World.Inv

variable {w : World numEntries numWhens}

theorem init : World.Inv ⟨Dependency.new numEntries numWhens, 0⟩ where
  whenID _ _ hc := absurd hc not_mem_nil
  entry _ _ hbuf := absurd hbuf not_mem_nil
  allocated _ _ hbuf := absurd hbuf not_mem_nil
  nodup _ := nodup_nil

theorem reg (h : w.Inv) (c : Continuation numEntries numWhens) :
    World.Inv ⟨w.dep.reg c, w.allocated⟩ where
  whenID := by
    refine forall_update (P := fun whenID (l : List (Continuation numEntries numWhens)) => ∀ c ∈ l,
      c.whenID = whenID) (fun c' hc' => ?_) h.whenID
    obtain hc' | hc' := mem_append.mp hc'
    · exact h.whenID _ c' hc'
    · rw [mem_singleton.mp hc']
  entry := h.entry
  allocated := h.allocated
  nodup := h.nodup

theorem dereg (h : w.Inv) (c : Continuation numEntries numWhens) :
    World.Inv ⟨w.dep.dereg c, w.allocated⟩ where
  whenID := forall_update (P := fun whenID l => ∀ c ∈ l, c.whenID = whenID)
    (fun c' hc' => h.whenID _ c' (mem_of_mem_filter hc')) h.whenID
  entry := h.entry
  allocated := h.allocated
  nodup := h.nodup

theorem pushBuffer (h : w.Inv) (entry : Fin numEntries) (refnum : Nat) :
    World.Inv ⟨w.dep.pushBuffer w.allocated entry refnum, w.allocated + 1⟩ where
  whenID := h.whenID
  entry := by
    refine forall_update (P := fun entry (l : List (Buffer numEntries)) => ∀ buf ∈ l, buf.entry =
      entry) (fun buf hbuf => ?_) h.entry
    obtain hbuf | hbuf := mem_append.mp hbuf
    · exact h.entry _ buf hbuf
    · rw [mem_singleton.mp hbuf]
  allocated := by
    refine forall_update (P := fun _ l => ∀ buf ∈ l, buf.obj < w.allocated + 1) (fun buf hbuf => ?_)
      fun entry' buf hbuf => Nat.lt_succ_of_lt (h.allocated entry' buf hbuf)
    obtain hbuf | hbuf := mem_append.mp hbuf
    · exact Nat.lt_succ_of_lt (h.allocated _ buf hbuf)
    · rw [mem_singleton.mp hbuf]
      exact Nat.lt_succ_self _
  nodup := by
    refine forall_update ?_ h.nodup
    have hnew : ⟨w.allocated, entry, refnum⟩ ∉ w.dep.buffer entry :=
      fun hmem => lt_irrefl _ (h.allocated _ _ hmem)
    refine nodup_append.mpr ⟨h.nodup entry, pairwise_singleton _ _, fun a ha b hb heq => hnew ?_⟩
    rw [← mem_singleton.mp hb, ← heq]
    exact ha

theorem removeMessage (h : w.Inv) (buf : Buffer numEntries) :
    World.Inv ⟨w.dep.removeMessage buf, w.allocated⟩ where
  whenID := h.whenID
  entry := forall_update (P := fun entry l => ∀ buf ∈ l, buf.entry = entry)
    (fun buf' hbuf' => h.entry _ buf' (mem_of_mem_filter hbuf')) h.entry
  allocated := forall_update (P := fun _ l => ∀ buf ∈ l, buf.obj < w.allocated)
    (fun buf' hbuf' => h.allocated _ buf' (mem_of_mem_filter hbuf')) h.allocated
  nodup := forall_update ((h.nodup _).filter _) h.nodup

theorem next (h : w.Inv) (e : Event numEntries numWhens) : (w.next e).Inv := by
  cases e with
  | addDepends whenID entry => exact ⟨h.whenID, h.entry, h.allocated, h.nodup⟩
  | reg c => exact h.reg c
  | dereg c => exact h.dereg c
  | pushBuffer entry refnum => exact h.pushBuffer entry refnum
  | removeMessage buf => exact h.removeMessage buf
  | tryFindContinuation entry =>
    rw [World.next, Dependency.tryFindContinuation]
    split
    · exact h
    · exact h.dereg _

theorem of_reachable (h : (dependencySystem numEntries numWhens).Reachable w) : w.Inv := by
  refine h.invariant (fun w hw => ?_) fun w e w' hw hstep => ?_
  · obtain rfl : w = _ := hw
    exact init
  · obtain rfl : w.next e = w' := hstep
    exact hw.next e

end World.Inv

/-! ### Satisfiable continuations -/

namespace Dependency

variable {d : Dependency numEntries numWhens} {c : Continuation numEntries numWhens}

theorem zip_entries (c : Continuation numEntries numWhens) :
    (c.entries.zip c.refnums).map Prod.fst = c.entries :=
  map_fst_zip (le_of_eq c.refnums_size.symm)

/-- **Different messages for all positions** are there if and only if there are enough of them. -/
theorem satisfiable_iff_ample (hnodup : d.messages.Nodup) : d.Satisfiable c ↔ d.Ample c := by
  constructor
  · rintro ⟨used, any, hdistinct, hmem, hused, hany⟩
    have hentries : (used ++ any).map (·.entry) = c.entries ++ c.anyEntries := by
      rw [map_append, hany, ← zip_entries c, ← hused, map_map]
      rfl
    have hsub : (used ++ any).Subperm d.messages := subperm_of_subset hdistinct hmem
    exact ⟨count_le_of_pick ((sublist_append_left used any).subperm.trans hsub) hused,
      count_le_of_pick hsub hentries⟩
  · rintro ⟨hrefs, hentries⟩
    obtain ⟨used, rest, hsplit, hused⟩ := exists_pick hrefs
    have husedEntries : used.map (·.entry) = c.entries := by
      rw [← zip_entries c, ← hused, map_map]
      rfl
    have hrest : ∀ entry, c.anyEntries.count entry ≤ (rest.map (·.entry)).count entry := by
      intro entry
      have hle := hentries entry
      rw [(hsplit.map _).count_eq, map_append, husedEntries, count_append, count_append] at hle
      exact Nat.le_of_add_le_add_left hle
    obtain ⟨any, left, hsplit', hany⟩ := exists_pick hrest
    have hall : d.messages.Perm ((used ++ any) ++ left) := by
      rw [append_assoc]
      exact hsplit.trans (hsplit'.append_left used)
    refine ⟨used, any, (nodup_append.mp (hall.nodup_iff.mp hnodup)).1, fun buf hbuf => ?_,
      hused, hany⟩
    exact hall.mem_iff.mpr (mem_append_left left hbuf)

end Dependency

theorem World.Inv.messages_nodup {w : World numEntries numWhens} (h : w.Inv) :
    w.dep.messages.Nodup := by
  refine nodup_flatMap.mpr ⟨fun entry _ => h.nodup entry, (nodup_finRange numEntries).imp ?_⟩
  intro entry entry' hne buf hbuf hbuf'
  exact hne ((h.entry entry buf hbuf).symm.trans (h.entry entry' buf hbuf'))

/-! ### The search -/

namespace Dependency

variable {d : Dependency numEntries numWhens} {c : Continuation numEntries numWhens}

theorem searchBufferedMatching_iff : d.searchBufferedMatching c ↔ d.Ready c := by
  have hany : ∀ l : List (Buffer numEntries), (∃ buf, buf ∈ l) ↔ l ≠ [] := fun l => by
    cases l with
    | nil => simp
    | cons buf l => simp
  simp [searchBufferedMatching, tryFindMessage, Ready, hany]

theorem mem_messages {buf : Buffer numEntries} :
    buf ∈ d.messages ↔ ∃ entry, buf ∈ d.buffer entry := by
  simp [messages]

theorem Satisfiable.ready (h : d.Satisfiable c)
    (hentry : ∀ entry, ∀ buf ∈ d.buffer entry, buf.entry = entry) :
    d.Ready c := by
  obtain ⟨used, any, -, hmem, hused, hany⟩ := h
  have hfind : ∀ buf ∈ used ++ any, buf ∈ d.buffer buf.entry := by
    intro buf hbuf
    obtain ⟨entry, hin⟩ := mem_messages.mp (hmem buf hbuf)
    rwa [hentry entry buf hin]
  constructor
  · intro p hp
    rw [← hused] at hp
    obtain ⟨buf, hbuf, rfl⟩ := mem_map.mp hp
    exact ⟨buf, hfind buf (mem_append_left any hbuf), rfl⟩
  · intro entry hin
    rw [← hany] at hin
    obtain ⟨buf, hbuf, rfl⟩ := mem_map.mp hin
    exact ne_nil_of_mem (hfind buf (mem_append_right used hbuf))

theorem tryFindContinuation_eq (d : Dependency numEntries numWhens) (entry : Fin numEntries) :
    d.tryFindContinuation entry = match (d.candidates entry).find? d.searchBufferedMatching with
      | none => (none, d)
      | some c => (some c, d.dereg c) := by
  have hfind : (d.candidates entry).find? d.searchBufferedMatching =
      (d.entryToWhen entry).findSome? fun whenID =>
        (d.whenToContinuation whenID).find? d.searchBufferedMatching :=
    find?_flatMap
  exact hfind ▸ rfl

theorem find?_candidates {entry : Fin numEntries} :
    (d.candidates entry).find? d.searchBufferedMatching = some c ↔
      d.Ready c ∧ ∃ pre post, d.candidates entry = pre ++ c :: post ∧ ∀ c' ∈ pre, ¬ d.Ready c' := by
  simp [find?_eq_some_iff_append, ← searchBufferedMatching_iff]

theorem dereg_whenToContinuation
    (hwhen : ∀ whenID, ∀ c ∈ d.whenToContinuation whenID, c.whenID = whenID)
    (c : Continuation numEntries numWhens) (whenID : Fin numWhens) :
    (d.dereg c).whenToContinuation whenID = (d.whenToContinuation whenID).filter (· ≠ c) := by
  by_cases h : whenID = c.whenID
  · subst h
    exact Function.update_self ..
  · refine (Function.update_of_ne h ..).trans (filter_eq_self.mpr fun c' hc' => ?_).symm
    rw [decide_eq_true_iff]
    rintro rfl
    exact h (hwhen whenID c' hc').symm

end Dependency

/-- **A continuation is matched as it should be** if and only if the first one that has a message
for each position has different ones for all of them. -/
theorem tryFindContinuation_matches_iff {w : World numEntries numWhens}
    (h : (dependencySystem numEntries numWhens).Reachable w) (entry : Fin numEntries) :
    w.dep.Matches entry (w.dep.tryFindContinuation entry) ↔
      ∀ pre c post, w.dep.candidates entry = pre ++ c :: post → (∀ c' ∈ pre, ¬ w.dep.Ready c') →
      w.dep.Ready c →
        w.dep.Ample c := by
  have hinv := World.Inv.of_reachable h
  have hample : ∀ c, w.dep.Satisfiable c ↔ w.dep.Ample c :=
    fun c => Dependency.satisfiable_iff_ample hinv.messages_nodup
  have hready : ∀ c, w.dep.Satisfiable c → w.dep.Ready c := fun c hc => hc.ready hinv.entry
  rw [Dependency.tryFindContinuation_eq]
  cases hfind : (w.dep.candidates entry).find? w.dep.searchBufferedMatching with
  | none =>
    have hnone : ∀ c ∈ w.dep.candidates entry, ¬ w.dep.Ready c := by
      intro c hc hr
      exact find?_eq_none.mp hfind c hc (Dependency.searchBufferedMatching_iff.mpr hr)
    refine ⟨fun _ pre c post hsplit _ hr => absurd hr (hnone c ?_), fun _ =>
      ⟨fun c hc hs => hnone c hc (hready c hs), rfl⟩⟩
    rw [hsplit]
    exact mem_append_right pre mem_cons_self
  | some c =>
    obtain ⟨hc, pre, post, hsplit, hpre⟩ := Dependency.find?_candidates.mp hfind
    constructor
    · rintro ⟨⟨-, -, -, hs, -⟩, -⟩ pre' c' post' hsplit' hpre' hc'
      -- the first ready candidate is the one that was found
      have hfind' := Dependency.find?_candidates.mpr ⟨hc', pre', post', hsplit', hpre'⟩
      obtain rfl : c = c' := Option.some.inj (hfind.symm.trans hfind')
      exact (hample c).mp hs
    · intro hcond
      refine ⟨⟨pre, post, hsplit, (hample c).mpr (hcond pre c post hsplit hpre hc), fun c' hc' hs =>
        ?_⟩, rfl, rfl, fun whenID => ?_⟩
      · exact hpre c' hc' (hready c' hs)
      · exact Dependency.dereg_whenToContinuation hinv.whenID c whenID

/-! ### Two positions that ask for the same message -/

/-- The state after these calls. -/
def afterCalls (calls : List (Event numEntries numWhens)) : World numEntries numWhens :=
  calls.foldl World.next ⟨Dependency.new numEntries numWhens, 0⟩

theorem foldl_reachable {w : World numEntries numWhens}
    (h : (dependencySystem numEntries numWhens).Reachable w)
    (calls : List (Event numEntries numWhens)) :
    (dependencySystem numEntries numWhens).Reachable (calls.foldl World.next w) := by
  induction calls generalizing w with
  | nil => exact h
  | cons e calls ih => exact ih (h.step rfl)

theorem afterCalls_reachable (calls : List (Event numEntries numWhens)) :
    (dependencySystem numEntries numWhens).Reachable (afterCalls calls) :=
  foldl_reachable (.init rfl) calls

local instance neZeroOne : NeZero 1 := ⟨one_ne_zero⟩

/-- A when clause that names an entry method twice, with one reference number. -/
def twice : Continuation 1 1 := ⟨0, 0, [0, 0], [0, 0], [], rfl⟩

/-- Two messages for `twice`. -/
theorem tryFindContinuation_matches_twice :
    let w := afterCalls [.addDepends 0 0, .reg twice, .pushBuffer 0 0, .pushBuffer 0 0]
    w.dep.Matches 0 (w.dep.tryFindContinuation 0) ∧ (w.dep.tryFindContinuation 0).1 =
    some twice := by
  refine ⟨(tryFindContinuation_matches_iff (afterCalls_reachable _) 0).mpr
    fun pre c post hsplit _ _ => ?_, rfl⟩
  obtain rfl : c = twice := by
    have hc : c ∈ pre ++ c :: post := mem_append_right pre mem_cons_self
    rw [← hsplit] at hc
    exact mem_singleton.mp hc
  refine ⟨fun p => ?_, fun entry => ?_⟩
  · exact le_refl _
  · exact le_refl _

/-- One message is taken for both positions. -/
theorem twice_found_unsatisfiable :
    let w := afterCalls [.addDepends 0 0, .reg twice, .pushBuffer 0 0]
    (dependencySystem 1 1).Reachable w ∧ (w.dep.tryFindContinuation 0).1 = some twice ∧
    ¬ w.dep.Satisfiable twice ∧
      ¬ w.dep.Matches 0 (w.dep.tryFindContinuation 0) := by
  have hreach :
    (dependencySystem 1 1).Reachable (afterCalls [.addDepends 0 0, .reg twice, .pushBuffer 0 0]) :=
    afterCalls_reachable _
  have hsat :
    ¬ (afterCalls [.addDepends 0 0, .reg twice, .pushBuffer 0 0]).dep.Satisfiable twice := by
    rw [Dependency.satisfiable_iff_ample (World.Inv.of_reachable hreach).messages_nodup]
    exact fun h => absurd (h.1 (0, 0)) (by decide)
  exact ⟨hreach, rfl, hsat, fun h => hsat h.1.choose_spec.choose_spec.2.1⟩

end CharmRuntime.Sdag
