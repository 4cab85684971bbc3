import CharmRuntime.Lib.Transition
import CharmRuntime.Util.HashtableSound

/-!
# Util.HashtableMap

`CkHashtable` refines a finite map on the classes of equivalent keys. `contents` is the
map that a sequence of calls stands for: the object of the last `put` of the key, unless
it was removed since. `Shows` says that a list of entries is this map; each call's effect
on the entries (`HashtableSound`) is a step of it, and so every run of the table shows
the contents of its calls.
-/

namespace CharmRuntime.Util

open Lib List

/-- A call on a table. -/
inductive HashOp (K V : Type)
  | put (key : K) (obj : V)
  | get (key : K)
  | remove (key : K)
  | empty

variable {K V : Type} {F : KeyFns K}

/-! ### The map that a sequence of calls stands for -/

variable (F) in
/-- The map after one more call. -/
def HashOp.after (m : K → Option V) : HashOp K V → K → Option V
  | .put key obj => fun k => if F.compare k key then some obj else m k
  | .get _ => m
  | .remove key => fun k => if F.compare k key then none else m k
  | .empty => fun _ => none

variable (F) in
/-- The map after a sequence of calls on an empty table. -/
def contents (ops : List (HashOp K V)) : K → Option V :=
  ops.foldl (HashOp.after F) (fun _ => none)

theorem contents_append (ops : List (HashOp K V)) (op : HashOp K V) :
    contents F (ops ++ [op]) = op.after F (contents F ops) := by
  unfold contents
  rw [foldl_append]
  rfl

variable (F) in
/-- The entries are those of the map: one for each class of keys that it has. -/
structure Shows (l : List (K × V)) (m : K → Option V) : Prop where
  apart : l.Pairwise (fun e f => F.compare f.1 e.1 = false)
  eq_some_iff : ∀ k v, m k = some v ↔ ∃ e ∈ l, F.compare k e.1 = true ∧ e.2 = v

section Shows

variable {l rest : List (K × V)} {m : K → Option V}

theorem shows_nil : Shows F ([] : List (K × V)) (fun _ => none) := by
  refine ⟨Pairwise.nil, fun k v => ?_⟩
  simp

theorem KeyFns.Lawful.compare_comm (hF : F.Lawful) (a b : K) : F.compare a b = F.compare b a := by
  rw [Bool.eq_iff_iff]
  exact ⟨hF.symm a b, hF.symm b a⟩

theorem Shows.perm (hF : F.Lawful) (h : Shows F l m) {l' : List (K × V)} (hp : l'.Perm l) :
    Shows F l' m := by
  refine ⟨(hp.pairwise_iff ?_).mpr h.apart, fun k v => ?_⟩
  · intro a b hab
    rw [hF.compare_comm]
    exact hab
  · rw [h.eq_some_iff]
    constructor
    · intro ⟨e, he, h'⟩
      exact ⟨e, hp.mem_iff.mpr he, h'⟩
    · intro ⟨e, he, h'⟩
      exact ⟨e, hp.mem_iff.mp he, h'⟩

theorem Shows.eq_none_iff (h : Shows F l m) (k : K) :
    m k = none ↔ ∀ e ∈ l, F.compare k e.1 = false := by
  constructor
  · intro hk e he
    by_contra hne
    rw [Bool.not_eq_false] at hne
    rw [(h.eq_some_iff k e.2).mpr ⟨e, he, hne, rfl⟩] at hk
    exact absurd hk (Option.some_ne_none _)
  · intro hout
    cases hm : m k with
    | none => rfl
    | some v =>
      obtain ⟨e, he, hcmp, -⟩ := (h.eq_some_iff k v).mp hm
      rw [hout e he] at hcmp
      exact absurd hcmp Bool.false_ne_true

variable {e : K × V} {key : K}

theorem Shows.eq_some (h : Shows F l m) {k : K} (he : e ∈ l)
    (hcmp : F.compare k e.1 = true) : m k = some e.2 :=
  (h.eq_some_iff k e.2).mpr ⟨e, he, hcmp, rfl⟩

theorem KeyFns.Lawful.compare_of (hF : F.Lawful) {k a b : K} (ha : F.compare k a = true)
    (hb : F.compare k b = true) : F.compare a b = true :=
  hF.trans a k b (hF.symm k a ha) hb

theorem Shows.put_new (hF : F.Lawful) (h : Shows F l m) {obj : V}
    (hout : ∀ e ∈ l, F.compare key e.1 = false) :
    Shows F ((key, obj) :: l) (HashOp.after F m (.put key obj)) := by
  refine ⟨pairwise_cons.mpr ⟨fun e he => ?_, h.apart⟩, fun k v => ?_⟩
  · rw [hF.compare_comm]
    exact hout e he
  · simp only [HashOp.after, mem_cons, exists_eq_or_imp]
    by_cases hk : F.compare k key = true
    · rw [if_pos hk]
      constructor
      · intro hv
        exact .inl ⟨hk, Option.some.inj hv⟩
      · intro hv
        rcases hv with ⟨-, rfl⟩ | ⟨e, he, hcmp, -⟩
        · rfl
        · exact absurd ((hout e he).symm.trans (hF.compare_of hk hcmp)) Bool.false_ne_true
    · rw [if_neg hk, h.eq_some_iff]
      constructor
      · intro hv
        exact .inr hv
      · intro hv
        rcases hv with ⟨hk', -⟩ | hv
        · exact absurd hk' hk
        · exact hv

theorem Shows.remove (hF : F.Lawful) (h : Shows F (e :: rest) m)
    (hkey : F.compare key e.1 = true) : Shows F rest (HashOp.after F m (.remove key)) := by
  obtain ⟨hfirst, hrest⟩ := pairwise_cons.mp h.apart
  refine ⟨hrest, fun k v => ?_⟩
  simp only [HashOp.after]
  by_cases hk : F.compare k key = true
  · rw [if_pos hk]
    constructor
    · intro hv
      exact absurd hv (Option.some_ne_none v).symm
    · rintro ⟨f, hf, hcmp, -⟩
      have hfe := hF.trans f.1 k e.1 (hF.symm k f.1 hcmp) (hF.trans k key e.1 hk hkey)
      rw [hfirst f hf] at hfe
      exact absurd hfe Bool.false_ne_true
  · rw [if_neg hk, h.eq_some_iff]
    constructor
    · intro ⟨f, hf, hcmp, hv⟩
      rcases mem_cons.mp hf with rfl | hf
      · exact absurd (hF.trans k f.1 key hcmp (hF.symm key f.1 hkey)) hk
      · exact ⟨f, hf, hcmp, hv⟩
    · intro ⟨f, hf, h'⟩
      exact ⟨f, mem_cons_of_mem e hf, h'⟩

theorem Shows.put_old (hF : F.Lawful) {obj : V} (h : Shows F (e :: rest) m)
    (hkey : F.compare key e.1 = true) :
    Shows F ((e.1, obj) :: rest) (HashOp.after F m (.put key obj)) := by
  have hout : ∀ f ∈ rest, F.compare e.1 f.1 = false := by
    intro f hf
    rw [hF.compare_comm]
    exact (pairwise_cons.mp h.apart).1 f hf
  have hnew :
    Shows F ((e.1, obj) :: rest) (HashOp.after F (HashOp.after F m (.remove key)) (.put e.1 obj)) :=
    (h.remove hF hkey).put_new hF hout
  refine ⟨hnew.apart, fun k v => ?_⟩
  rw [← hnew.eq_some_iff]
  -- the two maps agree: `k` is equivalent to `key` exactly when it is to `e.1`
  have hiff : F.compare k key = true ↔ F.compare k e.1 = true :=
    ⟨fun hk => hF.trans _ _ _ hk hkey, fun hk => hF.trans _ _ _ hk (hF.symm _ _ hkey)⟩
  simp only [HashOp.after]
  by_cases hk : F.compare k key = true
  · rw [if_pos hk, if_pos (hiff.mp hk)]
  · rw [if_neg hk, if_neg (fun hk' => hk (hiff.mpr hk')), if_neg hk]

end Shows

/-! ### Iterators -/

namespace CkHashtable

section Iterator

variable (t : CkHashtable K V)

theorem nextLoop_spec : ∀ (todo cur : Nat), cur + todo = t.len →
    (t.nextLoop todo cur = none ∧ (List.range' cur todo).filterMap t.table = []) ∨
    ∃ e cur', t.nextLoop todo cur = some (e, cur') ∧ cur < cur' ∧ cur' ≤ t.len ∧
      (List.range' cur todo).filterMap t.table =
        e :: (List.range' cur' (t.len - cur')).filterMap t.table := by
  intro todo
  induction todo with
  | zero =>
    intro cur _
    exact .inl ⟨rfl, rfl⟩
  | succ todo ih =>
    intro cur _
    unfold nextLoop
    rw [range'_succ]
    cases hT : t.table cur with
    | some e =>
      refine .inr ⟨e, cur + 1, rfl, Nat.lt_succ_self cur, by omega, ?_⟩
      rw [filterMap_cons_some hT, show t.len - (cur + 1) = todo by omega]
    | none =>
      rw [filterMap_cons_none hT]
      rcases ih (cur + 1) (by omega) with h | ⟨e, cur', h1, h2, h3⟩
      · exact .inl h
      · exact .inr ⟨e, cur', h1, by omega, h3⟩

theorem visitFrom_eq : ∀ (fuel cur : Nat), cur ≤ t.len → t.len - cur < fuel →
    t.visitFrom fuel cur = (List.range' cur (t.len - cur)).filterMap t.table := by
  intro fuel
  induction fuel with
  | zero =>
    intro cur _ h
    exact absurd h (Nat.not_lt_zero _)
  | succ fuel ih =>
    intro cur _ _
    unfold visitFrom next
    rcases nextLoop_spec t (t.len - cur) cur
      (by omega) with ⟨hnone, hnil⟩ | ⟨e, cur', hsome, h1, h2, h3⟩
    · rw [hnone, hnil]
    · rw [hsome, h3]
      dsimp only
      rw [ih cur' h2 (by omega)]

theorem visit_eq {fuel : Nat} (hfuel : t.len < fuel) :
    t.visitFrom fuel 0 = entries t.len t.table := by
  rw [visitFrom_eq t fuel 0 (Nat.zero_le _) (by omega), ← range_eq_range']
  rfl

end Iterator

/-! ### Runs -/

/-- A call on the table; what it returns is described apart. -/
def exec (F : KeyFns K) (t : CkHashtable K V) : HashOp K V → Except HashAbort (CkHashtable K V)
  | .put key obj => do
      let r ← put F t key obj
      return r.1
  | .get _ => .ok t
  | .remove key => do
      let r ← remove F t key
      return r.1
  | .empty => .ok t.empty

/-- The runs of a table of entries of `entrySize` bytes, made with `initLen` slots. -/
def hashSystem (F : KeyFns K) (entrySize initLen : Nat) (lf : LoadFactor) :
    Transition (CkHashtable K V) (HashOp K V) where
  init t := create entrySize initLen lf = .ok t
  step t op t' := exec F t op = .ok t'

section Runs

variable {t t' : CkHashtable K V} {m : K → Option V} (hF : F.Lawful)
  (h : HashInv F t) (hm : Shows F (entries t.len t.table) m)

include hF h hm

/-- What `put` returns. -/
theorem put_shows (hgrows : t.Grows) (key : K) (obj : V) :
    ∃ t', put F t key obj = .ok (t', (m key).isSome) ∧ HashInv F t' ∧
      Shows F (entries t'.len t'.table) (HashOp.after F m (.put key obj)) := by
  obtain ⟨t', existing, heq, hinv, heffect⟩ := put_spec hF h hgrows key obj
  rcases heffect with ⟨rfl, e, rest, hcmp, hold, hnew⟩ | ⟨rfl, hout, hnew⟩
  · have hm' := hm.perm hF hold.symm
    have hsome : m key = some e.2 := hm'.eq_some mem_cons_self hcmp
    exact ⟨t', by rw [heq, hsome]; rfl, hinv, (hm'.put_old hF hcmp).perm hF hnew⟩
  · have hnone : m key = none := (hm.eq_none_iff key).mpr hout
    exact ⟨t', by rw [heq, hnone]; rfl, hinv, (hm.put_new hF hout).perm hF hnew⟩

/-- What `remove` returns. -/
theorem remove_shows (key : K) :
    ∃ t', remove F t key = .ok (t', if (m key).isSome then 1 else 0) ∧ HashInv F t' ∧
      Shows F (entries t'.len t'.table) (HashOp.after F m (.remove key)) := by
  obtain ⟨t', removed, heq, hinv, heffect⟩ := remove_spec hF h key
  rcases heffect with ⟨rfl, rfl, hout⟩ | ⟨rfl, -, e, hcmp, hold⟩
  · have hnone : m key = none := (hm.eq_none_iff key).mpr hout
    refine ⟨t', by rw [heq, hnone]; rfl, hinv, hm.apart, fun k v => ?_⟩
    rw [← hm.eq_some_iff]
    -- the key was not there
    have hsame : ∀ k, F.compare k key = true → m k = none := by
      intro k hk
      rw [hm.eq_none_iff]
      intro e he
      by_contra hne
      rw [Bool.not_eq_false] at hne
      exact absurd ((hout e he).symm.trans (hF.compare_of hk hne)) Bool.false_ne_true
    simp only [HashOp.after]
    split
    · rename_i hk
      rw [hsame k hk]
    · rfl
  · have hm' := hm.perm hF hold.symm
    have hsome : m key = some e.2 := hm'.eq_some mem_cons_self hcmp
    exact ⟨t', by rw [heq, hsome]; rfl, hinv, hm'.remove hF hcmp⟩

theorem exec_shows {op : HashOp K V} (hstep : exec F t op = .ok t') :
    HashInv F t' ∧ Shows F (entries t'.len t'.table) (op.after F m) := by
  cases op with
  | put key obj =>
    obtain ⟨r, hr, hr'⟩ := bind_eq_ok.mp hstep
    have hgrows : t.Grows := by
      by_contra hlong
      rw [put_of_not_grows hlong] at hr
      cases hr
    obtain ⟨u, heq, hinv, hshow⟩ := put_shows hF h hm hgrows key obj
    rw [heq] at hr
    cases hr
    cases hr'
    exact ⟨hinv, hshow⟩
  | get key =>
    cases hstep
    exact ⟨h, hm⟩
  | remove key =>
    obtain ⟨r, hr, hr'⟩ := bind_eq_ok.mp hstep
    obtain ⟨u, heq, hinv, hshow⟩ := remove_shows hF h hm key
    rw [heq] at hr
    cases hr
    cases hr'
    exact ⟨hinv, hshow⟩
  | empty =>
    cases hstep
    obtain ⟨hinv, hnil⟩ := empty_spec h
    exact ⟨hinv, by rw [hnil]; exact shows_nil⟩

/-- What the two versions of `get` return. -/
theorem get_shows (key : K) :
    get F t key = m key ∧ ∀ fuel, t.len ≤ fuel → getT F t fuel key = some (m key) := by
  have hscan : ∀ fuel, t.len ≤ fuel → search F t key ≠ .full →
      scanOn t.len t.table (fun e => F.compare key e.1) fuel (F.hash key % t.len) =
      some (search F t key) :=
    fun fuel hfuel hne => scanOn_eq t.len fuel _ hfuel hne
  rcases search_cases hF h.probed key with ⟨x, e, hr, hx, he, hcmp⟩ | ⟨x, hr, -, -, -, hout⟩
  · have hsome : m key = some e.2 := hm.eq_some (mem_entries.mpr ⟨x, hx, he⟩) hcmp
    refine ⟨?_, fun fuel hfuel => ?_⟩
    · simp only [get, findKey, hr, he, hsome, Option.map_some]
    · rw [getT, hscan fuel hfuel (by rw [hr]; exact Scan.noConfusion), hr, hsome]
      simp only [he, Option.map_some]
  · have hnone : m key = none := (hm.eq_none_iff key).mpr hout
    refine ⟨?_, fun fuel hfuel => ?_⟩
    · simp only [get, findKey, hr, hnone]
    · rw [getT, hscan fuel hfuel (by rw [hr]; exact Scan.noConfusion), hr, hnone]

end Runs

variable {size n : Nat} {lf : LoadFactor} {ops : List (HashOp K V)} {t : CkHashtable K V}

theorem trace_exec {t' : CkHashtable K V} (hrun : (hashSystem F size n lf).Trace ops t)
    (op : HashOp K V) (hs : exec F t op = .ok t') :
    (hashSystem F size n lf).Trace (ops ++ [op]) t' :=
  hrun.step hs

theorem trace_shows (hF : F.Lawful) (hn : 0 < n) (hrun : (hashSystem F size n lf).Trace ops t) :
    HashInv F t ∧ Shows F (entries t.len t.table) (contents F ops) := by
  induction hrun with
  | init h0 =>
    obtain ⟨hinv, hnil⟩ := create_inv F hn h0
    rw [hnil]
    exact ⟨hinv, shows_nil⟩
  | step _ hs ih =>
    rw [contents_append]
    exact exec_shows hF ih.1 ih.2 hs

/-- What a table that stands for `m` answers. -/
structure AnswersAs (F : KeyFns K) (t : CkHashtable K V) (m : K → Option V) : Prop where
  /-- Both versions of `get` return the object of the key; the one without a check for the
  way around ends within as many rounds as there are slots. -/
  get : ∀ key, get F t key = m key
  getT : ∀ key fuel, t.len ≤ fuel → getT F t fuel key = some (m key)
  /-- `put` never aborts and reports whether the key was there, as long as the table does
  not have to grow beyond the `int`s. -/
  put : t.Grows → ∀ key obj, ∃ t', put F t key obj = .ok (t', (m key).isSome)
  remove : ∀ key, ∃ t', remove F t key = .ok (t', if (m key).isSome then 1 else 0)
  /-- An iterator visits one entry for each key that is there. -/
  visit : ∀ fuel, t.len < fuel → t.visitFrom fuel 0 = t.visit
  visit_apart : t.visit.Pairwise (fun e f => F.compare f.1 e.1 = false)
  visit_iff : ∀ key obj, m key = some obj ↔ ∃ e ∈ t.visit, F.compare key e.1 = true ∧ e.2 = obj
  numObjects : t.numObjects = t.visit.length

theorem answersAs_of_shows (hF : F.Lawful) {m : K → Option V}
    (hinv : HashInv F t) (hshow : Shows F (entries t.len t.table) m) : AnswersAs F t m := by
  have hvisit : t.visit = entries t.len t.table := visit_eq t (Nat.lt_succ_self _)
  refine ⟨fun key => (get_shows hF hinv hshow key).1, fun key => (get_shows hF hinv hshow key).2,
    fun hgrows key obj => ?_, fun key => ?_, fun fuel hfuel => ?_, ?_, ?_, ?_⟩
  · obtain ⟨t', heq, -⟩ := put_shows hF hinv hshow hgrows key obj
    exact ⟨t', heq⟩
  · obtain ⟨t', heq, -⟩ := remove_shows hF hinv hshow key
    exact ⟨t', heq⟩
  · rw [hvisit, visit_eq t hfuel]
  · rw [hvisit]
    exact hshow.apart
  · rw [hvisit]
    exact hshow.eq_some_iff
  · rw [hvisit]
    exact hinv.count

theorem trace_answers (hF : F.Lawful) (hn : 0 < n) (hrun : (hashSystem F size n lf).Trace ops t) :
    AnswersAs F t (contents F ops) := by
  obtain ⟨hinv, hshow⟩ := trace_shows hF hn hrun
  exact answersAs_of_shows hF hinv hshow

/-- **`CkHashtable` refines a finite map.** For every equivalence of keys with a hash that
respects it, every entry size, initial length and load factor below one, and every run of
calls: the table is made when its length and its storage fit the `int`s, and then answers
as the map. -/
theorem hashtable_refines_map (F : KeyFns K) (hF : F.Lawful) (entrySize initLen : Nat)
    (hpos : 1 ≤ initLen) (hmax : initLen < maxLen) (hsize : entrySize * initLen < maxLen)
    (lf : LoadFactor) :
    (∃ t : CkHashtable K V, create entrySize initLen lf = .ok t) ∧
    ∀ (ops : List (HashOp K V)) (t : CkHashtable K V),
      (hashSystem F entrySize initLen lf).Trace ops t → AnswersAs F t (contents F ops) := by
  exact ⟨create_ok hmax hsize lf, fun ops t hrun => trace_answers hF hpos hrun⟩

/-- `2^27` slots of 16 bytes: `layout.entrySize()*len` is `2^31`. -/
theorem not_hashtable_made : ¬ ∀ entrySize initLen : Nat, 1 ≤ initLen → initLen < maxLen →
    ∀ lf : LoadFactor, ∃ t : CkHashtable Nat Nat, create entrySize initLen lf = .ok t := by
  intro h
  obtain ⟨t, ht⟩ := h 16 (2 ^ 27) (by decide) (by decide) ⟨1, 2, by decide, by decide⟩
  rw [create_tooLong (by decide)] at ht
  cases ht

/-- Numbers as keys, all of them with their last digit as hash value. -/
def digitKeys : KeyFns Nat where
  hash k := k % 10
  compare a b := a == b

theorem digitKeys_lawful : digitKeys.Lawful where
  refl a := by simp [digitKeys]
  symm a b h := by simp_all [digitKeys]
  trans a b c h h' := by simp_all [digitKeys]
  hash_eq a b h := by simp_all [digitKeys]

/-- Three colliding keys in a table made with one slot; the first of them is removed. -/
theorem hashtable_refines_map_digits :
    ∃ t : CkHashtable Nat Nat,
      AnswersAs digitKeys t (contents digitKeys [.put 1 5, .put 11 6, .put 21 7, .remove 1]) := by
  have h0 : (hashSystem (V := Nat) digitKeys 24 1 ⟨1, 2, by decide, by decide⟩).Trace [] _ :=
    .init rfl
  have h1 := trace_exec h0 (.put 1 5) rfl
  have h2 := trace_exec h1 (.put 11 6) rfl
  have h3 := trace_exec h2 (.put 21 7) rfl
  have h4 := trace_exec h3 (.remove 1) rfl
  exact ⟨_, (hashtable_refines_map digitKeys digitKeys_lawful 24 1 (by decide) (by decide)
    (by decide) _).2 _ _ h4⟩

end CkHashtable

end CharmRuntime.Util
