import CharmRuntime.Zht.Table
import Mathlib.Data.Set.Card
import Mathlib.Tactic.Linarith

/-!
# Zht.TableSound

`NoVoHT` in memory. Each call changes the entry of its key only (`store_changed`,
`append_changed`, `remove_changed`), and making the table larger changes none, so that a run
leaves a map (`table_is_map`). A call has a result unless a counter or the size is no `int`
any more (`Fits`).

The count of the entries is right until a full table is made larger: `resize` sets it to 0,
and does not count the entries that it moves (`count_right_iff`).
-/

namespace CharmRuntime.Zht

open Lib List
open CharmRuntime.Matrix (Text)

namespace Table

variable {hash : Text → Nat} {t : Table} {k : Text}

/-! ### The calls -/

theorem Ok.resize (h : t.Ok hash) {ns : Nat} (hns : 0 < ns) : (t.resize hash ns).Ok hash where
  size_pos := hns
  placed := SlotTable.placed_deal (h.placed.nodup_elements t.size)

theorem entryOf_resize (h : t.Ok hash) (ns : Nat) :
    (t.resize hash ns).entryOf hash = t.entryOf hash := by
  funext k
  exact h.placed.find_deal (slot_lt h.size_pos) k

theorem entryCount_resize {ns : Nat} (hns : 0 < ns) :
    (t.resize hash ns).entryCount = t.entryCount :=
  SlotTable.length_elements_deal (slot_lt hns) _

/-- What `put` may do before it stores: the entries stay, and they are not counted if the
table is made larger. -/
structure Grown (hash : Text → Nat) (t u : Table) : Prop where
  ok : u.Ok hash
  entryOf : u.entryOf hash = t.entryOf hash
  entryCount : u.entryCount = t.entryCount
  resizeNum : u.resizeNum = t.resizeNum
  rounding : u.rounding = t.rounding
  nRem : u.nRem = t.nRem
  numEl : u.numEl = if t.Full then 0 else t.numEl
  size : ¬ t.Full → u.size = t.size

theorem grown_cases (h : t.Ok hash) :
    (t.Full ∧ 2 ^ 31 ≤ t.size * 2 ∧ t.grown hash = none) ∨
      ∃ u, t.grown hash = some u ∧ Grown hash t u := by
  rw [grown]
  by_cases hfull : t.Full
  · rw [if_pos hfull]
    by_cases hsize : t.size * 2 < 2 ^ 31
    · have hpos := mul_pos h.size_pos two_pos
      exact .inr ⟨_, if_pos hsize, h.resize hpos, entryOf_resize h _, entryCount_resize hpos, rfl,
        rfl, rfl, (if_pos hfull).symm, fun hnot => absurd hfull hnot⟩
    · exact .inl ⟨hfull, not_lt.mp hsize, if_neg hsize⟩
  · rw [if_neg hfull]
    exact .inr ⟨t, rfl, h, rfl, rfl, rfl, rfl, rfl, (if_neg hfull).symm, fun _ => rfl⟩

/-- `numEl` has changed by `added`, if it is an `int` still. -/
theorem count_cases (t : Table) (added : Int) :
    (¬ IsInt (t.numEl + added) ∧ t.count added = none) ∨
      (IsInt (t.numEl + added) ∧ t.count added = some { t with numEl := t.numEl + added }) := by
  unfold count
  by_cases hint : IsInt (t.numEl + added)
  · exact .inr ⟨hint, by rw [checkedInt_of_isInt hint]; rfl⟩
  · exact .inl ⟨hint, by rw [checkedInt_eq_none.mpr hint]; rfl⟩

/-- What `put` does behind `resize`. -/
theorem store_changed (h : t.Ok hash) (k v : Text) :
    (t.entryOf hash k = none ∧ ((¬ IsInt (t.numEl + 1) ∧ t.store hash k v = none) ∨
      IsInt (t.numEl + 1) ∧
        ∃ t', t.store hash k v = some t' ∧ Changed hash t k (some ⟨k, v⟩) 1 t')) ∨
    ∃ cur t', t.entryOf hash k = some cur ∧ t.store hash k v = some t' ∧
      Changed hash t k (some { cur with val := v }) 0 t' := by
  obtain ⟨hk, heq⟩ | ⟨pre, cur, post, hchain, hpre, rfl, heq⟩ :=
    putChain_cases k v (t.kvpairs (slot hash t.size k))
  · have hany : ¬ (t.kvpairs (slot hash t.size k)).any (·.key = k) = true := by
      simpa using hk
    refine .inl ⟨entryOf_eq_none_iff.mpr hk, ?_⟩
    rw [store, if_neg hany, heq]
    obtain ⟨hint, hcount⟩ | ⟨hint, hcount⟩ := count_cases { t with
      kvpairs := Function.update t.kvpairs (slot hash t.size k)
        (t.kvpairs (slot hash t.size k) ++ [⟨k, v⟩]) } 1
    · exact .inl ⟨hint, hcount⟩
    · refine .inr ⟨hint, _, hcount, ?_⟩
      exact @Written.add hash t _ ⟨k, v⟩ _ [] ⟨rfl, rfl, rfl, rfl, rfl⟩ h hk (append_nil _).symm
  · have hany : (t.kvpairs (slot hash t.size cur.key)).any (·.key = cur.key) = true := by
      rw [hchain]
      simp
    refine .inr ⟨cur, _, entryOf_split hchain hpre, if_pos hany, ?_⟩
    rw [heq]
    exact Written.replace ⟨rfl, rfl, rfl, (add_zero _).symm, rfl⟩ h hchain hpre rfl

theorem append_changed (h : t.Ok hash) (k aval : Text) :
    (t.entryOf hash k = none ∧ ((¬ IsInt (t.numEl + 1) ∧ t.append hash k aval = none) ∨
      IsInt (t.numEl + 1) ∧ ∃ t', t.append hash k aval = some (t.rc, t') ∧
        Changed hash t k (some ⟨k, aval⟩) 1 t')) ∨
    ∃ cur t', t.entryOf hash k = some cur ∧ t.append hash k aval = some (t.rc, t') ∧
      Changed hash t k (some { cur with val := cur.val ++ ':' :: aval }) 0 t' := by
  rw [append]
  cases happend : appendChain k aval (t.kvpairs (slot hash t.size k)) with
  | none =>
    have hk := appendChain_eq_none_iff.mp happend
    refine .inl ⟨entryOf_eq_none_iff.mpr hk, ?_⟩
    obtain ⟨hint, hcount⟩ | ⟨hint, hcount⟩ := count_cases { t with
      kvpairs := Function.update t.kvpairs (slot hash t.size k)
        (⟨k, aval⟩ :: t.kvpairs (slot hash t.size k)) } 1
    · exact .inl ⟨hint, congrArg (Option.map _) hcount⟩
    · refine .inr ⟨hint, _, congrArg (Option.map _) hcount, ?_⟩
      exact @Written.add hash t _ ⟨k, aval⟩ [] _ ⟨rfl, rfl, rfl, rfl, rfl⟩ h hk rfl
  | some chain =>
    obtain ⟨pre, cur, post, hchain, hpre, rfl, rfl⟩ := appendChain_eq_some happend
    refine .inr ⟨cur, _, entryOf_split hchain hpre, rfl, ?_⟩
    exact Written.replace ⟨rfl, rfl, rfl, (add_zero _).symm, rfl⟩ h hchain hpre rfl

/-- The entries that are removed are counted, if their number is an `int` still. -/
theorem countRem_cases (t : Table) (created : Nat) :
    (¬ IsInt (t.nRem + 1) ∧ t.countRem t.removeRc created = none) ∨
      IsInt (t.nRem + 1) ∧ ∃ ret t', t.countRem t.removeRc created = some (ret, t') ∧ ret ≠ -1 ∧
        t'.kvpairs = t.kvpairs ∧ t'.size = t.size ∧ t'.numEl = t.numEl ∧
        t'.resizeNum = t.resizeNum ∧ t'.rounding = t.rounding := by
  rw [countRem]
  by_cases hint : IsInt (t.nRem + 1)
  · rw [checkedInt_of_isInt hint, Option.bind_eq_bind, Option.bind_some]
    refine .inr ⟨hint, ?_⟩
    dsimp only
    split
    · refine ⟨_, _, rfl, ?_, ?_⟩
      · simp only [writeFile, removeRc, rc]
        split_ifs <;> simp_all
      · simp only [writeFile]
        split_ifs <;> exact ⟨rfl, rfl, rfl, rfl, rfl⟩
    · refine ⟨_, _, rfl, ?_, rfl, rfl, rfl, rfl, rfl⟩
      simp only [removeRc, rc]
      split_ifs <;> simp
  · rw [checkedInt_eq_none.mpr hint]
    exact .inl ⟨hint, rfl⟩

/-- The entry is taken out, if the counters are `int`s still. -/
theorem removeEntry_cases (t : Table) (k : Text) (chain : List Entry) (created : Nat) :
    (¬ (IsInt (t.numEl + -1) ∧ IsInt (t.nRem + 1)) ∧ t.removeEntry hash k chain created = none) ∨
      IsInt (t.numEl + -1) ∧ IsInt (t.nRem + 1) ∧
        ∃ ret t', t.removeEntry hash k chain created = some (ret, t') ∧ ret ≠ -1 ∧
          Written hash t k chain (-1) t' := by
  rw [removeEntry]
  obtain ⟨hint, hcount⟩ | ⟨hnum, hcount⟩ := count_cases { t with
    kvpairs := Function.update t.kvpairs (slot hash t.size k) chain } (-1)
  · exact .inl ⟨fun h => hint h.1, by rw [hcount]; rfl⟩
  · rw [hcount, Option.bind_eq_bind, Option.bind_some]
    obtain ⟨hint, hnone⟩ | ⟨hint, ret, t', heq, hret, hkvpairs, hsize, hnumEl, hresize, hround⟩ :=
      countRem_cases { t with
        kvpairs := Function.update t.kvpairs (slot hash t.size k) chain, numEl := t.numEl + -1 }
        created
    · exact .inl ⟨fun h => hint h.2, hnone⟩
    · exact .inr ⟨hnum, hint, ret, t', heq, hret, hsize, hresize, hround, hnumEl, hkvpairs⟩

theorem remove_changed (h : t.Ok hash) (k : Text) (created : Nat) :
    (t.entryOf hash k = none ∧ t.remove hash k created = some (-1, t)) ∨
    ∃ cur, t.entryOf hash k = some cur ∧
      ((¬ (IsInt (t.numEl + -1) ∧ IsInt (t.nRem + 1)) ∧ t.remove hash k created = none) ∨
        IsInt (t.numEl + -1) ∧ IsInt (t.nRem + 1) ∧
          ∃ ret t', t.remove hash k created = some (ret, t') ∧ ret ≠ -1 ∧
            Changed hash t k none (-1) t') := by
  obtain ⟨hk, heq⟩ | ⟨pre, cur, post, hchain, hpre, rfl, heq⟩ := remove_eq hash t k created
  · exact .inl ⟨entryOf_eq_none_iff.mpr hk, heq⟩
  · rw [heq]
    refine .inr ⟨cur, entryOf_split hchain hpre, ?_⟩
    obtain hnone | ⟨hnum, hrem, ret, t', heq', hret, hwritten⟩ :=
      removeEntry_cases t cur.key (pre ++ post) created
    · exact .inl hnone
    · exact .inr ⟨hnum, hrem, ret, t', heq', hret, hwritten.erase h hchain hpre⟩

/-! ### The map -/

/-- The size and the counters are `int`s behind the call. -/
def Fits (hash : Text → Nat) (t : Table) : TableOp → Prop
  | .put k _ => (t.Full → t.size * 2 < 2 ^ 31) ∧
      (¬ t.Full → t.contents hash k = none → IsInt (t.numEl + 1))
  | .append k _ => t.contents hash k = none → IsInt (t.numEl + 1)
  | .remove k _ => t.contents hash k ≠ none → IsInt (t.numEl + -1) ∧ IsInt (t.nRem + 1)
  | .rewritten => True

theorem contents_eq_none_iff : t.contents hash k = none ↔ t.entryOf hash k = none :=
  Option.map_eq_none_iff

theorem Grown.contents {u : Table} (h : Grown hash t u) : u.contents hash = t.contents hash := by
  funext k
  rw [Table.contents, h.entryOf, Table.contents]

theorem put_eq {u t' : Table} (hgrown : t.grown hash = some u) {v : Text}
    (hstore : u.store hash k v = some t') : t.put hash k v = some (t.rc, t') := by
  rw [put, hgrown, Option.bind_eq_bind, Option.bind_some, hstore]
  rfl

/-- A call that fits has a result, which is right. -/
theorem step_ok (h : t.Ok hash) {op : TableOp} (hfits : t.Fits hash op) :
    ∃ t', t.step hash op = some t' ∧ t'.Ok hash ∧
      t'.contents hash = tableSpec (t.contents hash) op := by
  cases op with
  | put k v =>
    obtain ⟨hfull, hsize, -⟩ | ⟨u, hgrown, hu⟩ := grown_cases h
    · exact absurd (hfits.1 hfull) (not_lt.mpr hsize)
    · have hput : ∀ t', u.store hash k v = some t' → t.step hash (.put k v) = some t' :=
        fun t' hstore => congrArg (Option.map Prod.snd) (put_eq hgrown hstore)
      obtain ⟨hnone, ⟨hint, -⟩ | ⟨-, t', hstore, hchanged⟩⟩ | ⟨cur, t', -, hstore, hchanged⟩ :=
        store_changed hu.ok k v
      · rw [hu.numEl] at hint
        split at hint
        · exact absurd (by decide) hint
        · rename_i hfull
          rw [← contents_eq_none_iff, hu.contents] at hnone
          exact absurd (hfits.2 hfull hnone) hint
      all_goals exact ⟨t', hput t' hstore, hchanged.ok, hu.contents ▸ hchanged.contents⟩
  | append k aval =>
    obtain ⟨hnone, ⟨hint, -⟩ | ⟨-, t', happend, hchanged⟩⟩ |
      ⟨cur, t', hcur, happend, hchanged⟩ := append_changed h k aval
    · exact absurd (hfits (contents_eq_none_iff.mpr hnone)) hint
    · refine ⟨t', congrArg (Option.map Prod.snd) happend, hchanged.ok, hchanged.contents.trans ?_⟩
      simp [tableSpec, contents, hnone, Novoht.appended]
    · refine ⟨t', congrArg (Option.map Prod.snd) happend, hchanged.ok, hchanged.contents.trans ?_⟩
      simp [tableSpec, contents, hcur, Novoht.appended]
  | remove k created =>
    obtain ⟨hnone, heq⟩ | ⟨cur, hcur, ⟨hint, -⟩ | ⟨-, -, ret, t', heq, -, hchanged⟩⟩ :=
      remove_changed h k created
    · refine ⟨t, congrArg (Option.map Prod.snd) heq, h, (Function.update_eq_self_iff.mpr ?_).symm⟩
      rw [contents, hnone]
      rfl
    · refine absurd (hfits fun hnone => ?_) hint
      rw [contents_eq_none_iff, hcur] at hnone
      cases hnone
    · exact ⟨t', congrArg (Option.map Prod.snd) heq, hchanged.ok, hchanged.contents⟩
  | rewritten =>
    refine ⟨_, rfl, ?_⟩
    split
    · exact ⟨⟨h.size_pos, h.placed⟩, rfl⟩
    · exact ⟨h, rfl⟩

/-- A call that does not fit overflows. -/
theorem step_eq_none (h : t.Ok hash) {op : TableOp} (hfits : ¬ t.Fits hash op) :
    t.step hash op = none := by
  cases op with
  | put k v =>
    rw [step, Option.map_eq_none_iff, put, Option.bind_eq_bind]
    obtain ⟨-, -, hnone⟩ | ⟨u, hgrown, hu⟩ := grown_cases h
    · rw [hnone, Option.bind_none]
    · rw [hgrown, Option.bind_some]
      have hsize : t.Full → t.size * 2 < 2 ^ 31 := fun hfull => by
        rw [grown, if_pos hfull, Option.ite_none_right_eq_some] at hgrown
        exact hgrown.1
      rw [Fits, not_and, Classical.not_imp, Classical.not_imp] at hfits
      obtain ⟨hfull, hnew, hint⟩ := hfits hsize
      rw [← hu.contents, contents_eq_none_iff] at hnew
      obtain ⟨-, ⟨-, hstore⟩ | ⟨hint', -⟩⟩ | ⟨cur, -, hcur, -⟩ := store_changed hu.ok k v
      · rw [hstore, Option.bind_none]
      · rw [hu.numEl, if_neg hfull] at hint'
        exact absurd hint' hint
      · rw [hnew] at hcur
        cases hcur
  | append k aval =>
    obtain ⟨hnone, hint⟩ := Classical.not_imp.mp hfits
    rw [contents_eq_none_iff] at hnone
    obtain ⟨-, ⟨-, happend⟩ | ⟨hint', -⟩⟩ | ⟨cur, -, hcur, -⟩ := append_changed h k aval
    · exact congrArg (Option.map Prod.snd) happend
    · exact absurd hint' hint
    · rw [hnone] at hcur
      cases hcur
  | remove k created =>
    obtain ⟨hsome, hint⟩ := Classical.not_imp.mp hfits
    obtain ⟨hnone, -⟩ | ⟨-, -, ⟨-, hremove⟩ | ⟨hnum, hrem, -⟩⟩ := remove_changed h k created
    · exact absurd (contents_eq_none_iff.mpr hnone) hsome
    · exact congrArg (Option.map Prod.snd) hremove
    · exact absurd ⟨hnum, hrem⟩ hint
  | rewritten => exact absurd trivial hfits

theorem run_append (hash : Text → Nat) (t : Table) (ops ops' : List TableOp) :
    t.run hash (ops ++ ops') = (t.run hash ops).bind fun u => u.run hash ops' := by
  rw [run, foldlM_append]
  rfl

theorem run_concat (hash : Text → Nat) (t : Table) (ops : List TableOp) (op : TableOp) :
    t.run hash (ops ++ [op]) = (t.run hash ops).bind fun u => u.step hash op := by
  rw [run_append]
  refine congrArg (Option.bind _) (funext fun u => ?_)
  rw [run, foldlM_cons]
  cases u.step hash op <;> rfl

/-- Each call of the run meets the condition. -/
def Throughout (hash : Text → Nat) (ok : Table → TableOp → Prop) (t : Table)
    (ops : List TableOp) : Prop :=
  ∀ done op rest, ops = done ++ op :: rest → ∀ u, t.run hash done = some u → ok u op

theorem Throughout.concat {ok : Table → TableOp → Prop} {ops : List TableOp} {op : TableOp}
    (h : Throughout hash ok t ops) (hop : ∀ u, t.run hash ops = some u → ok u op) :
    Throughout hash ok t (ops ++ [op]) := by
  intro done op' rest heq u hu
  obtain rfl | ⟨rest', last, rfl⟩ := eq_nil_or_concat' rest
  · obtain ⟨rfl, hlast⟩ := append_inj' heq rfl
    obtain rfl := (cons.inj hlast).1
    exact hop u hu
  · rw [← cons_append, ← append_assoc] at heq
    obtain ⟨rfl, -⟩ := append_inj' heq rfl
    exact h done op' rest' rfl u hu

theorem Throughout.of_append {ok : Table → TableOp → Prop} {ops ops' : List TableOp}
    (h : Throughout hash ok t (ops ++ ops')) : Throughout hash ok t ops := by
  intro done op rest heq u hu
  exact h done op (rest ++ ops') (by rw [heq, append_assoc, cons_append]) u hu

theorem run_ok (h : t.Ok hash) {ops : List TableOp}
    (hfits : Throughout hash (Fits hash) t ops) :
    ∃ t', t.run hash ops = some t' ∧ t'.Ok hash ∧
      t'.contents hash = ops.foldl tableSpec (t.contents hash) := by
  induction ops using reverseRecOn with
  | nil => exact ⟨t, rfl, h, rfl⟩
  | append_singleton ops op ih =>
    obtain ⟨u, hu, hok, hcontents⟩ := ih hfits.of_append
    obtain ⟨t', hstep, hok', hcontents'⟩ := step_ok hok (hfits ops op [] rfl u hu)
    refine ⟨t', ?_, hok', ?_⟩
    · rw [run_concat, hu]
      exact hstep
    · rw [hcontents', hcontents, foldl_concat]

/-- A run with a result has only calls that fit. -/
theorem throughout_of_run (h : t.Ok hash) {ops : List TableOp} {t' : Table}
    (hrun : t.run hash ops = some t') : Throughout hash (Fits hash) t ops := by
  induction ops using reverseRecOn generalizing t' with
  | nil =>
    intro done op rest heq
    exact absurd heq.symm (append_ne_nil_of_right_ne_nil _ (cons_ne_nil op rest))
  | append_singleton ops op ih =>
    rw [run_concat] at hrun
    obtain ⟨u, hu, hstep⟩ := Option.bind_eq_some_iff.mp hrun
    obtain ⟨u', hu', hok, -⟩ := run_ok h (ih hu)
    obtain rfl := Option.some.inj (hu.symm.trans hu')
    refine (ih hu).concat fun u' hu' => ?_
    obtain rfl := Option.some.inj (hu.symm.trans hu')
    by_contra hfits
    rw [step_eq_none hok hfits] at hstep
    cases hstep

theorem new_ok {size : Nat} (hsize : 0 < size) (filename : Text) (dbfile : Bool)
    (magicNumber : Int) (ratio : Rat) (rounding : FloatRounding) :
    (new filename dbfile size magicNumber ratio rounding).Ok hash ∧
      (new filename dbfile size magicNumber ratio rounding).contents hash = fun _ => none :=
  ⟨⟨hsize, SlotTable.placed_empty⟩, rfl⟩

/-- The result of `remove`. -/
theorem remove_ret (h : t.Ok hash) (k : Text) (created : Nat)
    (hfits : t.Fits hash (.remove k created)) :
    ∃ r, t.remove hash k created = some r ∧ (r.1 ≠ -1 ↔ t.contents hash k ≠ none) := by
  obtain ⟨hnone, heq⟩ | ⟨cur, hcur, ⟨hint, -⟩ | ⟨-, -, ret, t', heq, hret, -⟩⟩ :=
    remove_changed h k created
  · exact ⟨_, heq, by simp [contents, hnone]⟩
  · refine absurd (hfits fun hnone => ?_) hint
    rw [contents_eq_none_iff, hcur] at hnone
    cases hnone
  · exact ⟨_, heq, by simp [hret, contents, hcur]⟩

theorem Ok.count_key (h : t.Ok hash) (k : Text) (i : Nat) :
    ((t.kvpairs i).map Entry.key).count k =
      if t.contents hash k ≠ none ∧ i = slot hash t.size k then 1 else 0 := by
  rw [Nodup.count (h.placed.nodup i)]
  refine if_congr ?_ rfl rfl
  have hpresent : t.contents hash k ≠ none ↔
      k ∈ (t.kvpairs (slot hash t.size k)).map Entry.key := by
    rw [contents, ne_eq, Option.map_eq_none_iff, entryOf_eq_none_iff, not_not]
  rw [hpresent]
  constructor
  · intro hmem
    obtain ⟨p, hp, rfl⟩ := mem_map.mp hmem
    obtain rfl := h.placed.slot_eq i p hp
    exact ⟨hmem, rfl⟩
  · rintro ⟨hmem, rfl⟩
    exact hmem

end Table

/-- **A table is a map**, as long as its size and counters are `int`s. Whatever was put,
appended and removed, `get` and `remove` answer as a map does, and each key is in the chain of
its slot only, once. -/
theorem table_is_map (hash : Text → Nat) {size : Nat} (hsize : 1 ≤ size) (filename : Text)
    (dbfile : Bool) (magicNumber : Int) (ratio : Rat) (rounding : FloatRounding)
    {ops : List TableOp}
    (hfits : Table.Throughout hash (Table.Fits hash)
      (.new filename dbfile size magicNumber ratio rounding) ops) :
    ∃ t, (Table.new filename dbfile size magicNumber ratio rounding).run hash ops = some t ∧
      let m := ops.foldl tableSpec fun _ => none
      (∀ k, k ≠ [] → t.get hash k = m k) ∧
      (∀ k created, t.Fits hash (.remove k created) →
        ∃ r, t.remove hash k created = some r ∧ (r.1 ≠ -1 ↔ m k ≠ none)) ∧
      ∀ k i, ((t.kvpairs i).map Entry.key).count k =
        if m k ≠ none ∧ i = hash k % t.size then 1 else 0 := by
  obtain ⟨hnew, hempty⟩ :=
    @Table.new_ok hash size hsize filename dbfile magicNumber ratio rounding
  obtain ⟨t, hrun, hok, hcontents⟩ := Table.run_ok hnew hfits
  rw [hempty] at hcontents
  refine ⟨t, hrun, ?_⟩
  simp only [← hcontents]
  refine ⟨fun k hk => ?_, fun k created => Table.remove_ret hok k created, hok.count_key⟩
  rw [Table.get, if_neg hk]
  rfl

/-- Seven keys in one chain of a table that is made larger. -/
theorem table_is_map_seven :
    let ops := (range 7).map fun i => TableOp.append (Matrix.numToStr i) ['a']
    ((Table.new [] false 1 (-1) (1 / 2) .exact).run (fun k => k.length)
      (ops ++ [.put ['3'] ['b'], .remove ['5'] 0])).bind (Table.get (fun k => k.length) · ['3']) =
        some ['b'] := by
  intro ops
  obtain ⟨hnew, -⟩ := @Table.new_ok (fun k => k.length) 1 (by decide) [] false (-1) (1 / 2) .exact
  obtain ⟨t, hrun⟩ := Option.isSome_iff_exists.mp (by decide +kernel : ((Table.new [] false 1 (-1)
    (1 / 2) .exact).run (fun k => k.length) (ops ++ [.put ['3'] ['b'], .remove ['5'] 0])).isSome)
  obtain ⟨t', hrun', hget, -⟩ := table_is_map (fun k => k.length) (le_refl 1) [] false (-1) (1 / 2)
    .exact (Table.throughout_of_run hnew hrun)
  rw [hrun', Option.bind_some, hget _ (by decide)]
  decide +kernel

/-- A table of 2 ^ 30 chains is full behind the first call, and cannot be made larger. -/
theorem not_table_is_map : ¬ ∃ t, (Table.new [] false (2 ^ 30) (-1) (1 / 2 ^ 30) .exact).run
    (fun k => k.length) [.put ['a'] ['x'], .put ['b'] ['y']] = some t := by
  rintro ⟨t, hrun⟩
  have hnone : (Table.new [] false (2 ^ 30) (-1) (1 / 2 ^ 30) .exact).run (fun k => k.length)
      [.put ['a'] ['x'], .put ['b'] ['y']] = none :=
    Option.isNone_iff_eq_none.mp (by decide +kernel)
  rw [hnone] at hrun
  cases hrun

/-! ### The count -/

namespace Table

variable {hash : Text → Nat} {t : Table}

theorem mem_keys_iff (h : t.Ok hash) (k : Text) :
    k ∈ (SlotTable.elements t.size t.kvpairs).map Entry.key ↔ t.contents hash k ≠ none := by
  rw [contents, ne_eq, Option.map_eq_none_iff, entryOf_eq_none_iff, not_not, mem_map, mem_map]
  constructor
  · rintro ⟨p, hp, rfl⟩
    obtain ⟨i, -, hp⟩ := mem_flatMap.mp hp
    obtain rfl := h.placed.slot_eq i p hp
    exact ⟨p, hp, rfl⟩
  · rintro ⟨p, hp, hkey⟩
    exact ⟨p, mem_flatMap.mpr ⟨_, mem_range.mpr (slot_lt h.size_pos k), hp⟩, hkey⟩

theorem Ok.ncard (h : t.Ok hash) : {k | t.contents hash k ≠ none}.ncard = t.entryCount := by
  have hset : {k | t.contents hash k ≠ none} =
      (((SlotTable.elements t.size t.kvpairs).map Entry.key).toFinset) := by
    ext k
    rw [Set.mem_ofPred_eq, ← mem_keys_iff h, Finset.mem_coe, mem_toFinset]
  rw [hset, Set.ncard_coe_finset, toFinset_card_of_nodup (h.placed.nodup_elements t.size),
    length_map]
  rfl

/-- Where a call begins to count. -/
def countedFrom (t : Table) : TableOp → Int
  | .put _ _ => if t.Full then 0 else t.numEl
  | .append _ _ | .remove _ _ | .rewritten => t.numEl

/-- What a call does to the count, the size and the ratio. -/
structure Stepped (t : Table) (op : TableOp) (t' : Table) : Prop where
  resizeNum : t'.resizeNum = t.resizeNum
  rounding : t'.rounding = t.rounding
  numEl : t'.numEl + t.entryCount = t.countedFrom op + t'.entryCount
  size : (∀ k v, op = .put k v → ¬ t.Full) → t'.size = t.size

/-- What an operation does to the counts and the size of the table. -/
theorem step_stepped (h : t.Ok hash) {op : TableOp} {t' : Table}
    (hstep : t.step hash op = some t') : t.Stepped op t' := by
  cases op with
  | put k v =>
    obtain ⟨-, -, hnone⟩ | ⟨u, hgrown, hu⟩ := grown_cases h
    · rw [step, put, hnone] at hstep
      cases hstep
    · have hstored : ∀ {o added}, Changed hash u k o added t' → t.Stepped (.put k v) t' := by
        intro o added hchanged
        refine ⟨hchanged.resizeNum.trans hu.resizeNum, hchanged.rounding.trans hu.rounding, ?_,
          fun hroom => hchanged.size.trans (hu.size (hroom k v rfl))⟩
        rw [hchanged.numEl, hchanged.count, hu.numEl, hu.entryCount, countedFrom]
        ring
      have hput : ∀ {w}, u.store hash k v = some w → w = t' := fun hstore =>
        Option.some.inj ((congrArg (Option.map Prod.snd) (put_eq hgrown hstore)).symm.trans hstep)
      obtain ⟨-, ⟨-, hnone⟩ | ⟨-, w, hstore, hchanged⟩⟩ | ⟨cur, w, -, hstore, hchanged⟩ :=
        store_changed hu.ok k v
      · rw [step, put, hgrown, Option.bind_eq_bind, Option.bind_some, hnone] at hstep
        cases hstep
      · exact hstored (hput hstore ▸ hchanged)
      · exact hstored (hput hstore ▸ hchanged)
  | append k aval =>
    have happended : ∀ {o added w}, t.append hash k aval = some (t.rc, w) →
        Changed hash t k o added w → t.Stepped (.append k aval) t' := by
      intro o added w happend hchanged
      rw [step, happend] at hstep
      obtain rfl := Option.some.inj hstep
      refine ⟨hchanged.resizeNum, hchanged.rounding, ?_, fun _ => hchanged.size⟩
      rw [hchanged.numEl, hchanged.count, countedFrom]
      ring
    obtain ⟨-, ⟨-, hnone⟩ | ⟨-, w, happend, hchanged⟩⟩ | ⟨cur, w, -, happend, hchanged⟩ :=
      append_changed h k aval
    · rw [step, hnone] at hstep
      cases hstep
    · exact happended happend hchanged
    · exact happended happend hchanged
  | remove k created =>
    obtain ⟨-, heq⟩ | ⟨cur, -, ⟨-, hnone⟩ | ⟨-, -, ret, w, heq, -, hchanged⟩⟩ :=
      remove_changed h k created
    · rw [step, heq] at hstep
      obtain rfl := Option.some.inj hstep
      exact ⟨rfl, rfl, rfl, fun _ => rfl⟩
    · rw [step, hnone] at hstep
      cases hstep
    · rw [step, heq] at hstep
      obtain rfl := Option.some.inj hstep
      refine ⟨hchanged.resizeNum, hchanged.rounding, ?_, fun _ => hchanged.size⟩
      rw [hchanged.numEl, hchanged.count, countedFrom]
      ring
  | rewritten =>
    obtain rfl := Option.some.inj hstep
    split <;> exact ⟨rfl, rfl, rfl, fun _ => rfl⟩

/-- The table is not full when `put` is called. A size above 2 ^ 24 may be no `float`, and that
it is not full says less of it. -/
def Room (hash : Text → Nat) (t : Table) : TableOp → Prop
  | .put k _ => ¬ t.Full ∧ (2 ^ 24 < t.size →
      ({k' | k' = k ∨ t.contents hash k' ≠ none}.ncard : Rat) ≤ t.resizeNum * t.size + 1)
  | .append _ _ | .remove _ _ | .rewritten => True

/-- `getSize` is the number of keys, and behind `put` there are not many more than the ratio
allows. -/
def CountRight (hash : Text → Nat) (t : Table) (ops : List TableOp) : Prop :=
  ∃ u, t.run hash ops = some u ∧ u.getSize = ({k | u.contents hash k ≠ none}.ncard : Int) ∧
    ∀ done k v, ops = done ++ [.put k v] →
      ({k | u.contents hash k ≠ none}.ncard : Rat) ≤ t.resizeNum * u.size + 1

/-- A full table has an entry, if the ratio is a `float`. -/
theorem numEl_pos_of_full (hsize : 0 < t.size) (hratio : 0 < t.resizeNum)
    (hfloat : t.rounding.round t.resizeNum = t.resizeNum) (hfull : t.Full) : 0 < t.numEl := by
  by_contra hle
  have hone : (1 : Rat) ≤ t.rounding.round t.size := by
    have hnat := t.rounding.natCast 1 (by decide)
    rw [Nat.cast_one] at hnat
    rw [← hnat]
    exact t.rounding.mono _ _ (by exact_mod_cast hsize)
  have hzero : t.rounding.round t.numEl ≤ 0 := by
    have hnat := t.rounding.natCast 0 (by decide)
    rw [Nat.cast_zero] at hnat
    rw [← hnat]
    exact t.rounding.mono _ _ (by exact_mod_cast not_lt.mp hle)
  have hmul : t.resizeNum ≤ t.rounding.round (t.rounding.round t.size * t.resizeNum) := by
    exact hfloat.symm.le.trans (t.rounding.mono _ _ (le_mul_of_one_le_left hratio.le hone))
  exact absurd (hratio.trans_le (hmul.trans hfull.1)) (not_lt.mpr hzero)

/-- A table of a size that is a `float` is not full only if there is room for an entry. -/
theorem loaded_of_not_full (hratio : 0 < t.resizeNum) (hsize : t.size ≤ 2 ^ 24)
    (hfull : ¬ t.Full) : (t.numEl : Rat) < t.resizeNum * t.size := by
  rw [Full, not_and_not_right, t.rounding.natCast _ hsize] at hfull
  rw [mul_comm]
  exact t.rounding.lt_of_round_lt (not_le.mp fun hle => hratio.ne' (hfull hle))

/-- The keys behind `put`. -/
theorem keys_put {k v : Text} {t' : Table}
    (hcontents : t'.contents hash = tableSpec (t.contents hash) (.put k v)) :
    {k' | t'.contents hash k' ≠ none} = {k' | k' = k ∨ t.contents hash k' ≠ none} := by
  ext k'
  rw [Set.mem_ofPred_eq, Set.mem_ofPred_eq, hcontents, tableSpec]
  by_cases hk : k' = k
  · simp [hk]
  · simp [hk]

/-- Behind `put` there are not more keys than the ratio allows, and one. -/
theorem put_bound (h : t.Ok hash) (hcount : t.numEl = t.entryCount) (hratio : 0 < t.resizeNum)
    {k v : Text} (hroom : t.Room hash (.put k v)) {t' : Table}
    (hcontents : t'.contents hash = tableSpec (t.contents hash) (.put k v)) :
    ({k' | t'.contents hash k' ≠ none}.ncard : Rat) ≤ t.resizeNum * t.size + 1 := by
  rw [keys_put hcontents]
  by_cases hsize : 2 ^ 24 < t.size
  · exact hroom.2 hsize
  · have hload := loaded_of_not_full hratio (not_lt.mp hsize) hroom.1
    have hkeys : ({k' | t.contents hash k' ≠ none}.ncard : Rat) = t.numEl := by
      rw [h.ncard, hcount]
      rfl
    have hadd : ({k' | k' = k ∨ t.contents hash k' ≠ none}.ncard : Rat) ≤
        {k' | t.contents hash k' ≠ none}.ncard + 1 := by
      exact_mod_cast Set.ncard_insert_le k {k' | t.contents hash k' ≠ none}
    linarith

theorem countedFrom_of_room {op : TableOp} (hroom : t.Room hash op) :
    t.countedFrom op = t.numEl := by
  cases op with
  | put k v => exact if_neg hroom.1
  | append k aval => rfl
  | remove k created => rfl
  | rewritten => rfl

theorem run_frame (h : t.Ok hash) {ops : List TableOp} {u : Table}
    (hrun : t.run hash ops = some u) :
    u.Ok hash ∧ u.resizeNum = t.resizeNum ∧ u.rounding = t.rounding := by
  induction ops using reverseRecOn generalizing u with
  | nil =>
    obtain rfl := Option.some.inj hrun
    exact ⟨h, rfl, rfl⟩
  | append_singleton ops op ih =>
    obtain ⟨u', hu', hok, -⟩ := run_ok h (throughout_of_run h hrun)
    obtain rfl := Option.some.inj (hrun.symm.trans hu')
    rw [run_concat] at hrun
    obtain ⟨w, hw, hstep⟩ := Option.bind_eq_some_iff.mp hrun
    obtain ⟨hwok, hresize, hround⟩ := ih hw
    have hstepped := step_stepped hwok hstep
    exact ⟨hok, hstepped.resizeNum.trans hresize, hstepped.rounding.trans hround⟩

/-- The count stays right as long as no table is made larger. -/
theorem run_counted (h : t.Ok hash) (hcount : t.numEl = t.entryCount) {ops : List TableOp}
    (hops : Throughout hash (fun u op => u.Fits hash op ∧ u.Room hash op) t ops) :
    ∃ u, t.run hash ops = some u ∧ u.numEl = u.entryCount := by
  induction ops using reverseRecOn with
  | nil => exact ⟨t, rfl, hcount⟩
  | append_singleton ops op ih =>
    obtain ⟨u, hu, hnum⟩ := ih hops.of_append
    obtain ⟨hok, -⟩ := run_frame h hu
    obtain ⟨hfits, hroom⟩ := hops ops op [] rfl u hu
    obtain ⟨t', hstep, -⟩ := step_ok hok hfits
    refine ⟨t', by rw [run_concat, hu]; exact hstep, ?_⟩
    have hnum' := (step_stepped hok hstep).numEl
    rw [countedFrom_of_room hroom] at hnum'
    omega

/-- A call behind which the count is right did not find the table full. -/
theorem room_of_counted (h : t.Ok hash) (hcount : t.numEl = t.entryCount)
    (hratio : 0 < t.resizeNum) (hfloat : t.rounding.round t.resizeNum = t.resizeNum)
    {op : TableOp} {t' : Table} (hstep : t.step hash op = some t')
    (hcontents : t'.contents hash = tableSpec (t.contents hash) op)
    (hcount' : t'.numEl = t'.entryCount)
    (hbound : ∀ k v, op = .put k v →
      ({k | t'.contents hash k ≠ none}.ncard : Rat) ≤ t.resizeNum * t'.size + 1) :
    t.Room hash op := by
  have hstepped := step_stepped h hstep
  cases op with
  | put k v =>
    have hfull : ¬ t.Full := by
      intro hfull
      have hpos := numEl_pos_of_full h.size_pos hratio hfloat hfull
      have hnum := hstepped.numEl
      rw [countedFrom, if_pos hfull] at hnum
      omega
    refine ⟨hfull, fun _ => ?_⟩
    rw [← keys_put hcontents, ← hstepped.size fun _ _ _ => hfull]
    exact hbound k v rfl
  | append k aval => trivial
  | remove k created => trivial
  | rewritten => trivial

end Table

/-- **The count of the entries.** It is right behind every call of a run exactly if no `put` of
the run finds the table full: `resize` forgets the entries that it moves. The ratio is a
`float`, and no counter overflows. -/
theorem count_right_iff (hash : Text → Nat) {size : Nat} (hsize : 1 ≤ size) {ratio : Rat}
    (hratio : 0 < ratio) (rounding : FloatRounding) (hfloat : rounding.round ratio = ratio)
    (filename : Text) (dbfile : Bool) (magicNumber : Int) (ops : List TableOp) :
    (∀ done rest, ops = done ++ rest →
      (Table.new filename dbfile size magicNumber ratio rounding).CountRight hash done) ↔
      Table.Throughout hash (fun u op => u.Fits hash op ∧ u.Room hash op)
        (.new filename dbfile size magicNumber ratio rounding) ops := by
  obtain ⟨hnew, -⟩ :=
    @Table.new_ok hash size hsize filename dbfile magicNumber ratio rounding
  have hempty : (Table.new filename dbfile size magicNumber ratio rounding).numEl =
      (Table.new filename dbfile size magicNumber ratio rounding).entryCount := by
    have hnone : (Table.new filename dbfile size magicNumber ratio rounding).entryCount = 0 :=
      length_eq_zero_iff.mpr (flatMap_eq_nil_iff.mpr fun _ _ => rfl)
    rw [hnone]
    rfl
  have hnum : (Table.new filename dbfile size magicNumber ratio rounding).resizeNum = ratio := rfl
  have hround : (Table.new filename dbfile size magicNumber ratio rounding).rounding = rounding :=
    rfl
  generalize Table.new filename dbfile size magicNumber ratio rounding = t
    at hnew hempty hnum hround ⊢
  constructor
  · intro hright done op rest hsplit u hu
    obtain ⟨hok, hresize, hrounding⟩ := Table.run_frame hnew hu
    obtain ⟨u', hu', hbefore, -⟩ := hright done (op :: rest) hsplit
    obtain rfl := Option.some.inj (hu.symm.trans hu')
    obtain ⟨w, hw, hbehind, hbound⟩ :=
      hright (done ++ [op]) rest (by rw [hsplit, append_assoc]; rfl)
    have hstep : u.step hash op = some w := by
      rw [Table.run_concat, hu] at hw
      exact hw
    have hfits : u.Fits hash op := by
      by_contra hfits
      rw [Table.step_eq_none hok hfits] at hstep
      cases hstep
    obtain ⟨w', hstep', hokw, hcontents⟩ := Table.step_ok hok hfits
    obtain rfl := Option.some.inj (hstep.symm.trans hstep')
    rw [hok.ncard] at hbefore
    rw [hokw.ncard] at hbehind
    refine ⟨hfits, Table.room_of_counted hok hbefore ?_ ?_ hstep hcontents hbehind ?_⟩
    · rwa [hresize, hnum]
    · rwa [hresize, hrounding, hnum, hround]
    · intro k v hop
      rw [hresize]
      exact hbound done k v (by rw [hop])
  · intro hops done rest hsplit
    rw [hsplit] at hops
    obtain ⟨u, hu, hcount⟩ := Table.run_counted hnew hempty hops.of_append
    obtain ⟨hok, -⟩ := Table.run_frame hnew hu
    refine ⟨u, hu, by rw [hok.ncard]; exact hcount, fun done' k v hdone => ?_⟩
    subst hdone
    obtain ⟨u', hu', hcount'⟩ := Table.run_counted hnew hempty hops.of_append.of_append
    obtain ⟨hok', hresize, -⟩ := Table.run_frame hnew hu'
    obtain ⟨hfits, hroom⟩ := hops.of_append done' (.put k v) [] rfl u' hu'
    obtain ⟨w, hstep, -, hcontents⟩ := Table.step_ok hok' hfits
    rw [Table.run_concat, hu'] at hu
    obtain rfl := Option.some.inj (hstep.symm.trans hu)
    have hbound := Table.put_bound hok' hcount' (by rwa [hresize, hnum]) hroom hcontents
    rwa [hresize, ← (Table.step_stepped hok' hstep).size fun _ _ _ => hroom.1] at hbound

/-- One `put` into a table of four chains, and what follows it. -/
theorem count_right_three :
    (Table.new [] false 4 (-1) (1 / 2) .exact).CountRight (fun k => k.length)
      [.put ['a'] ['x'], .append ['b'] ['y'], .remove ['a'] 0] := by
  obtain ⟨hnew, -⟩ := @Table.new_ok (fun k => k.length) 4 (by decide) [] false (-1) (1 / 2) .exact
  obtain ⟨t, hrun⟩ := Option.isSome_iff_exists.mp (by decide +kernel : ((Table.new [] false 4 (-1)
    (1 / 2) .exact).run (fun k => k.length)
      [.put ['a'] ['x'], .append ['b'] ['y'], .remove ['a'] 0]).isSome)
  refine (count_right_iff (fun k => k.length) (by decide) (by norm_num) .exact rfl [] false (-1)
    [.put ['a'] ['x'], .append ['b'] ['y'], .remove ['a'] 0]).mpr ?_ _ [] (append_nil _).symm
  intro done op rest heq u hu
  refine ⟨Table.throughout_of_run hnew hrun done op rest heq u hu, ?_⟩
  cases op with
  | put k v =>
    cases done with
    | nil =>
      obtain rfl := Option.some.inj hu
      exact ⟨by decide +kernel, fun hlarge => absurd hlarge (by decide)⟩
    | cons op done =>
      have hmem : TableOp.put k v ∈ [TableOp.append ['b'] ['y'], .remove ['a'] 0] := by
        rw [(cons.inj heq).2]
        exact mem_append_right _ mem_cons_self
      simp at hmem
  | append k aval => trivial
  | remove k created => trivial
  | rewritten => trivial

/-- The second key is put into a table of one chain that is full, and one key is counted. -/
theorem not_count_right : ¬ ∀ done rest,
    [TableOp.put ['a'] ['x'], .put ['b'] ['y']] = done ++ rest →
      (Table.new [] false 1 (-1) 1 .exact).CountRight (fun k => k.length) done := by
  intro hclaim
  obtain ⟨u, hu, hright, -⟩ := hclaim _ [] (append_nil _).symm
  obtain ⟨hnew, -⟩ := @Table.new_ok (fun k => k.length) 1 (by decide) [] false (-1) 1 .exact
  rw [(Table.run_frame hnew hu).1.ncard] at hright
  have hcounts : ((Table.new [] false 1 (-1) 1 .exact).run (fun k => k.length)
      [.put ['a'] ['x'], .put ['b'] ['y']]).map (fun t => (t.getSize, t.entryCount)) =
        some (1, 2) := by decide +kernel
  rw [hu, Option.map_some, hright] at hcounts
  simp only [Option.some.injEq, Prod.mk.injEq] at hcounts
  omega

end CharmRuntime.Zht
