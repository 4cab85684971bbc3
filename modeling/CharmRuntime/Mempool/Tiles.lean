import CharmRuntime.Mempool.Pool
import Mathlib.Data.List.Nodup

/-!
# Mempool.Tiles

How a block is cut: a list of tiles, each of a class and free or used, laid one behind the
other (`place`). `greedy` are the classes that both `fillblock` and `mempool_free` choose.
-/

namespace CharmRuntime.Mempool

open List Nat

/-! ### Classes -/

theorem cutOff_eq : ∀ {i : Nat}, i < cutOffNum → cutOff i = 64 * 2 ^ i := by decide

variable {i size left : Nat} {loc a : Int} {ts : List Tile} {t : Tile} {l₁ : List Tile}

theorem cutOff_pos (hi : i < cutOffNum) : 64 ≤ cutOff i := by
  rw [cutOff_eq hi]
  exact Nat.le_mul_of_pos_right 64 (Nat.two_pow_pos i)

theorem cutOff_le {j : Nat} (hj : j < cutOffNum) (hij : i ≤ j) : cutOff i ≤ cutOff j := by
  rw [cutOff_eq (lt_of_le_of_lt hij hj), cutOff_eq hj]
  exact mul_le_mul_left 64 (Nat.pow_le_pow_right (by decide) hij)

theorem cutOff_succ (hi : i + 1 < cutOffNum) : cutOff (i + 1) = cutOff i + cutOff i := by
  rw [cutOff_eq hi, cutOff_eq (lt_of_succ_lt hi)]
  ring

theorem cutOff_dvd (hi : i < cutOffNum) : 64 ∣ cutOff i := by
  rw [cutOff_eq hi]
  exact dvd_mul_right 64 _

theorem whichPow2_le (size : Nat) : whichPow2 size ≤ cutOffNum := findIdx_le_length

theorem cutOff_eq_getElem (hi : i < cutOffPoints.length) : cutOff i = cutOffPoints[i] := by
  rw [cutOff, getD_eq_getElem?_getD, getElem?_eq_getElem hi, Option.getD_some]

theorem le_cutOff_whichPow2 (h : whichPow2 size < cutOffNum) : size ≤ cutOff (whichPow2 size) := by
  have hfound : decide (size ≤ cutOffPoints[whichPow2 size]) = true :=
    findIdx_getElem (p := fun c => decide (size ≤ c))
  rw [cutOff_eq_getElem h]
  exact of_decide_eq_true hfound

theorem cutOff_lt_of_lt_whichPow2 (hi : i < whichPow2 size) : cutOff i < size := by
  have hnot := not_of_lt_findIdx hi
  rw [cutOff_eq_getElem (lt_of_lt_of_le hi (whichPow2_le size))]
  have hfalse := of_decide_eq_false hnot
  omega

theorem whichPow2_lt (h : size ≤ 2 ^ 30) : whichPow2 size < cutOffNum := by
  by_contra hnot
  have hlt :=
    cutOff_lt_of_lt_whichPow2 (lt_of_lt_of_le (by decide : 24 < cutOffNum) (not_lt.mp hnot))
  have heq : cutOff 24 = 2 ^ 30 := by decide
  omega

/-- The rounds of the loops in `fillblock` and `mempool_free`: one more than the largest class
that fits. -/
def rounds (left : Nat) : Nat :=
  if left < cutOff (whichPow2 left) then whichPow2 left else whichPow2 left + 1

theorem rounds_le (h : left ≤ 2 ^ 30) : rounds left ≤ cutOffNum := by
  have hlt := whichPow2_lt h
  unfold rounds
  split
  · omega
  · omega

theorem lt_rounds (h : left ≤ 2 ^ 30) : left < 64 * 2 ^ rounds left := by
  have hlt := whichPow2_lt h
  have hle := le_cutOff_whichPow2 hlt
  rw [cutOff_eq hlt] at hle
  unfold rounds
  split
  · next hless =>
      rw [cutOff_eq hlt] at hless
      exact hless
  · have hpos := Nat.two_pow_pos (whichPow2 left)
    omega

theorem rounds_pos (h : left ≤ 2 ^ 30) (hpos : 64 ≤ left) :
    0 < rounds left ∧ cutOff (rounds left - 1) ≤ left := by
  unfold rounds
  split
  · next hless =>
      cases hp : whichPow2 left with
      | zero =>
        rw [hp] at hless
        exact absurd hless (not_lt.mpr hpos)
      | succ i =>
        refine ⟨succ_pos i, ?_⟩
        have hi : i < whichPow2 left := by
          rw [hp]
          exact lt_succ_self i
        exact (cutOff_lt_of_lt_whichPow2 hi).le
  · next hless =>
      refine ⟨succ_pos _, ?_⟩
      exact not_lt.mp hless

/-! ### The greedy choice -/

/-- The classes that a loop for `i` from below its first argument down to 0 chooses. -/
def greedy : Nat → Nat → List Nat
  | 0, _ => []
  | i + 1, left => if cutOff i ≤ left then i :: greedy i (left - cutOff i) else greedy i left

/-- The bytes of some classes. -/
def classBytes (cs : List Nat) : Nat := (cs.map cutOff).sum

theorem lt_of_mem_greedy {r : Nat} (h : i ∈ greedy r left) : i < r := by
  induction r generalizing left with
  | zero => exact absurd h not_mem_nil
  | succ r ih =>
    unfold greedy at h
    split at h
    · obtain rfl | h := mem_cons.mp h
      · exact lt_succ_self i
      · exact lt_succ_of_lt (ih h)
    · exact lt_succ_of_lt (ih h)

theorem nodup_greedy (r left : Nat) : (greedy r left).Nodup := by
  induction r generalizing left with
  | zero => exact nodup_nil
  | succ r ih =>
    unfold greedy
    split
    · exact nodup_cons.mpr ⟨fun hmem => absurd (lt_of_mem_greedy hmem) (lt_irrefl r), ih _⟩
    · exact ih _

theorem classBytes_greedy {r : Nat} (hr : r ≤ cutOffNum) (hleft : left < 64 * 2 ^ r) :
    classBytes (greedy r left) ≤ left ∧ left < classBytes (greedy r left) + 64 := by
  induction r generalizing left with
  | zero => exact ⟨zero_le _, hleft⟩
  | succ r ih =>
    have hcut := cutOff_eq hr
    unfold greedy
    split
    · next hle =>
        have hrest : left - cutOff r < 64 * 2 ^ r := by
          omega
        obtain ⟨hle', hlt'⟩ := ih (le_of_succ_le hr) hrest
        have hsum : classBytes (r :: greedy r (left - cutOff r))
            = cutOff r + classBytes (greedy r (left - cutOff r)) := sum_cons
        omega
    · next hlt => exact ih (le_of_succ_le hr) (by omega)

theorem classBytes_dvd {cs : List Nat} (h : ∀ c ∈ cs, c < cutOffNum) : 64 ∣ classBytes cs := by
  induction cs with
  | nil => exact dvd_zero 64
  | cons c cs ih =>
    exact Nat.dvd_add (cutOff_dvd (h c mem_cons_self)) (ih fun d hd => h d (mem_cons_of_mem _ hd))

theorem classBytes_greedy_of_dvd {r : Nat} (hr : r ≤ cutOffNum) (hleft : left < 64 * 2 ^ r)
    (hdvd : 64 ∣ left) : classBytes (greedy r left) = left := by
  obtain ⟨hle, hlt⟩ := classBytes_greedy hr hleft
  have hdvd' : 64 ∣ classBytes (greedy r left) :=
    classBytes_dvd fun c hc => lt_of_lt_of_le (lt_of_mem_greedy hc) hr
  omega

theorem greedy_congr {r left' : Nat} (hr : r ≤ cutOffNum) (h : left / 64 = left' / 64) :
    greedy r left = greedy r left' := by
  induction r generalizing left left' with
  | zero => rfl
  | succ r ih =>
    obtain ⟨k, hk⟩ := cutOff_dvd hr
    have hle : cutOff r ≤ left ↔ cutOff r ≤ left' := by
      omega
    unfold greedy
    by_cases hleft : cutOff r ≤ left
    · rw [if_pos hleft, if_pos (hle.mp hleft), ih (le_of_succ_le hr)]
      omega
    · rw [if_neg hleft, if_neg (hle.not.mp hleft), ih (le_of_succ_le hr) h]

/-! ### Tiles -/

structure Tile where
  cls : Nat
  free : Bool
deriving DecidableEq

/-- The tiles with their places, from `loc` on. -/
def place : Int → List Tile → List (Int × Tile)
  | _, [] => []
  | loc, t :: ts => (loc, t) :: place (loc + cutOff t.cls) ts

/-- The places of the tiles. -/
def starts (loc : Int) (ts : List Tile) : List Int := (place loc ts).map (·.1)

/-- The bytes of the tiles. -/
def tileBytes (ts : List Tile) : Nat := (ts.map fun t => cutOff t.cls).sum

@[simp] theorem tileBytes_nil : tileBytes [] = 0 := rfl

@[simp] theorem tileBytes_cons (t : Tile) (ts : List Tile) :
    tileBytes (t :: ts) = cutOff t.cls + tileBytes ts := sum_cons

@[simp] theorem tileBytes_append (ts us : List Tile) :
    tileBytes (ts ++ us) = tileBytes ts + tileBytes us := by
  simp [tileBytes]

theorem place_append (loc : Int) (ts us : List Tile) :
    place loc (ts ++ us) = place loc ts ++ place (loc + tileBytes ts) us := by
  induction ts generalizing loc with
  | nil => simp [place]
  | cons t ts ih =>
    rw [cons_append, place, ih, place, tileBytes_cons, cons_append]
    have hloc : loc + (cutOff t.cls + tileBytes ts : Nat) = loc + cutOff t.cls + tileBytes ts := by
      push_cast
      ring
    rw [hloc]

theorem starts_append (loc : Int) (ts us : List Tile) :
    starts loc (ts ++ us) = starts loc ts ++ starts (loc + tileBytes ts) us := by
  rw [starts, place_append, map_append]
  rfl

theorem starts_cons (loc : Int) (t : Tile) (ts : List Tile) :
    starts loc (t :: ts) = loc :: starts (loc + cutOff t.cls) ts := rfl

theorem mem_starts (h : a ∈ starts loc ts) : ∃ t, (a, t) ∈ place loc ts := by
  obtain ⟨⟨a', t⟩, hmem, rfl⟩ := mem_map.mp h
  exact ⟨t, hmem⟩

theorem mem_starts_of_place (h : (a, t) ∈ place loc ts) : a ∈ starts loc ts :=
  mem_map.mpr ⟨(a, t), h, rfl⟩

/-- All classes are below `cutOffNum`. -/
def ClassesOk (ts : List Tile) : Prop := ∀ t ∈ ts, t.cls < cutOffNum

theorem ClassesOk.append {us : List Tile} : ClassesOk (ts ++ us) ↔ ClassesOk ts ∧ ClassesOk us := by
  constructor
  · intro h
    exact ⟨fun t ht => h t (mem_append_left _ ht), fun t ht => h t (mem_append_right _ ht)⟩
  · rintro ⟨hts, hus⟩ t ht
    obtain ht | ht := mem_append.mp ht
    · exact hts t ht
    · exact hus t ht

theorem mem_of_place (h : (a, t) ∈ place loc ts) : t ∈ ts := by
  induction ts generalizing loc with
  | nil => exact absurd h not_mem_nil
  | cons u ts ih =>
    obtain heq | h := mem_cons.mp h
    · obtain ⟨-, rfl⟩ := Prod.mk.inj heq
      exact mem_cons_self
    · exact mem_cons_of_mem _ (ih h)

theorem place_bounds (h : (a, t) ∈ place loc ts) :
    loc ≤ a ∧ a + cutOff t.cls ≤ loc + tileBytes ts := by
  induction ts generalizing loc with
  | nil => exact absurd h not_mem_nil
  | cons u ts ih =>
    rw [tileBytes_cons]
    obtain heq | h := mem_cons.mp h
    · obtain ⟨rfl, rfl⟩ := Prod.mk.inj heq
      omega
    · have hbounds := ih h
      omega

theorem starts_bounds (hts : ClassesOk ts) (ha : a ∈ starts loc ts) :
    loc ≤ a ∧ a + 64 ≤ loc + tileBytes ts := by
  obtain ⟨t, ht⟩ := mem_starts ha
  have hbounds := place_bounds ht
  have hcut := cutOff_pos (hts t (mem_of_place ht))
  omega

theorem place_apart {b : Int} {u : Tile} (ht : (a, t) ∈ place loc ts) (hu : (b, u) ∈ place loc ts) :
    (a = b ∧ t = u) ∨ a + cutOff t.cls ≤ b ∨ b + cutOff u.cls ≤ a := by
  induction ts generalizing loc with
  | nil => exact absurd ht not_mem_nil
  | cons v ts ih =>
    obtain ht' | ht := mem_cons.mp ht
    · obtain ⟨rfl, rfl⟩ := Prod.mk.inj ht'
      obtain hu' | hu := mem_cons.mp hu
      · obtain ⟨rfl, rfl⟩ := Prod.mk.inj hu'
        exact .inl ⟨rfl, rfl⟩
      · have hbounds := place_bounds hu
        exact .inr (.inl hbounds.1)
    · obtain hu' | hu := mem_cons.mp hu
      · obtain ⟨rfl, rfl⟩ := Prod.mk.inj hu'
        have hbounds := place_bounds ht
        exact .inr (.inr hbounds.1)
      · exact ih ht hu

theorem place_unique {u : Tile} (hts : ClassesOk ts)
    (ht : (a, t) ∈ place loc ts) (hu : (a, u) ∈ place loc ts) : t = u := by
  obtain ⟨-, heq⟩ | hle | hle := place_apart ht hu
  · exact heq
  · have hpos := cutOff_pos (hts t (mem_of_place ht))
    omega
  · have hpos := cutOff_pos (hts u (mem_of_place hu))
    omega

theorem nodup_starts (hts : ClassesOk ts) : (starts loc ts).Nodup := by
  induction ts generalizing loc with
  | nil => exact nodup_nil
  | cons t ts ih =>
    rw [starts_cons, nodup_cons]
    refine ⟨fun hmem => ?_, ih fun u hu => hts u (mem_cons_of_mem _ hu)⟩
    obtain ⟨u, hu⟩ := mem_starts hmem
    have hbounds := place_bounds hu
    have hpos := cutOff_pos (hts t mem_cons_self)
    omega

theorem place_middle {L : Int} (hL : L = loc + tileBytes l₁) (mid l2 : List Tile) :
    place loc (l₁ ++ mid ++ l2) = place loc l₁ ++ place L mid ++ place (L + tileBytes mid) l2 := by
  rw [place_append, place_append, tileBytes_append, hL]
  push_cast
  rw [add_assoc]

theorem starts_middle {L : Int} (hL : L = loc + tileBytes l₁) (mid l2 : List Tile) :
    starts loc (l₁ ++ mid ++ l2) = starts loc l₁ ++ starts L mid ++
    starts (L + tileBytes mid) l2 := by
  rw [starts, place_middle hL mid l2, map_append, map_append]
  rfl

/-- The tiles of a free stretch. -/
def freeTiles (cs : List Nat) : List Tile := cs.map fun c => { cls := c, free := true }

@[simp] theorem tileBytes_freeTiles (cs : List Nat) : tileBytes (freeTiles cs) = classBytes cs := by
  rw [tileBytes, freeTiles, map_map]
  rfl

end CharmRuntime.Mempool
