import Mathlib.Algebra.Order.Group.Multiset

/-!
# Lib.QueueMap

A map from keys to queues, as its entries in key order. `items` forgets the order: what
an operation adds or takes is an equation between multisets.
-/

namespace CharmRuntime.Lib

open List

/-- The entries of a map from keys to queues, in key order. -/
abbrev QueueMap (κ α : Type) := List (κ × List α)

namespace QueueMap

variable {κ α : Type}

/-- The members of a queue, each with its key. -/
def tagged (key : κ) (queue : List α) : Multiset (κ × α) := ↑(queue.map (Prod.mk key))

@[simp] theorem tagged_nil (key : κ) : tagged key ([] : List α) = 0 := rfl

@[simp] theorem tagged_cons (key : κ) (a : α) (queue : List α) :
    tagged key (a :: queue) = (key, a) ::ₘ tagged key queue := rfl

@[simp] theorem tagged_append (key : κ) (q1 q2 : List α) :
    tagged key (q1 ++ q2) = tagged key q1 + tagged key q2 := by
  simp [tagged]

@[simp] theorem card_tagged (key : κ) (queue : List α) :
    Multiset.card (tagged key queue) = queue.length := by
  simp [tagged]

theorem tagged_eq_zero {key : κ} {queue : List α} (h : tagged key queue = 0) : queue = [] := by
  cases queue with
  | nil => rfl
  | cons a rest => exact absurd h (by simp)

theorem mem_tagged {key : κ} {queue : List α} {e : κ × α} (h : e ∈ tagged key queue) :
    e.1 = key := by
  obtain ⟨a, -, rfl⟩ := mem_map.mp (Multiset.mem_coe.mp h)
  rfl

/-- Everything that waits, with its key. -/
def items : QueueMap κ α → Multiset (κ × α)
  | [] => 0
  | (key, queue) :: rest => tagged key queue + items rest

@[simp] theorem items_cons (key : κ) (queue : List α) (rest : QueueMap κ α) :
    items ((key, queue) :: rest) = tagged key queue + items rest := rfl

/-- No entry is an empty queue. -/
def Full (m : QueueMap κ α) : Prop := ∀ e ∈ m, e.2 ≠ []

/-! ### Operations -/

variable [DecidableEq κ]

/-- `m[key].push_back(a)`. -/
def push [LT κ] [DecidableLT κ] (key : κ) (a : α) : QueueMap κ α → QueueMap κ α
  | [] => [(key, [a])]
  | (k, queue) :: rest =>
    if key < k then (key, [a]) :: (k, queue) :: rest
    else if key = k then (k, queue ++ [a]) :: rest
    else (k, queue) :: push key a rest

/-- The queue of a key, if there is one. -/
def find (key : κ) : QueueMap κ α → Option (List α)
  | [] => none
  | (k, queue) :: rest => if k = key then some queue else find key rest

/-- `m.erase(key)`. -/
def erase (key : κ) : QueueMap κ α → QueueMap κ α
  | [] => []
  | (k, queue) :: rest => if k = key then rest else (k, queue) :: erase key rest

/-- The queue of a key replaced. -/
def replace (key : κ) (queue' : List α) : QueueMap κ α → QueueMap κ α
  | [] => []
  | (k, queue) :: rest =>
    if k = key then (k, queue') :: rest else (k, queue) :: replace key queue' rest

variable {key : κ} {a : α} {queue queue' : List α} {m : QueueMap κ α}

theorem items_push [LT κ] [DecidableLT κ] : items (push key a m) = (key, a) ::ₘ items m := by
  induction m with
  | nil => rfl
  | cons e rest ih =>
    obtain ⟨k, q⟩ := e
    unfold push
    split
    · simp
    · split
      · rename_i hk
        subst hk
        rw [items_cons, items_cons, tagged_append, add_right_comm, tagged_cons, tagged_nil,
          Multiset.add_cons, add_zero]
      · simp [ih]

theorem push_ne_nil [LT κ] [DecidableLT κ] : push key a m ≠ [] := by
  cases m with
  | nil => exact cons_ne_nil _ _
  | cons e rest =>
    unfold push
    split
    · exact cons_ne_nil _ _
    · split <;> exact cons_ne_nil _ _

theorem Full.push [LT κ] [DecidableLT κ] (h : m.Full) : (QueueMap.push key a m).Full := by
  induction m with
  | nil =>
    intro e he
    obtain rfl := mem_singleton.mp he
    exact cons_ne_nil _ _
  | cons e rest ih =>
    obtain ⟨hhead, hrest⟩ := forall_mem_cons.mp h
    unfold QueueMap.push
    split
    · exact forall_mem_cons.mpr ⟨cons_ne_nil _ _, h⟩
    · split
      · exact forall_mem_cons.mpr ⟨by simp, hrest⟩
      · exact forall_mem_cons.mpr ⟨hhead, ih hrest⟩

/-- What an erased queue held is missing afterwards. -/
theorem items_erase (h : find key m = some queue) :
    items m = tagged key queue + items (erase key m) := by
  induction m with
  | nil => exact absurd h (by simp [find])
  | cons e rest ih =>
    unfold find at h
    unfold erase
    split at h
    · rename_i hk
      subst hk
      obtain rfl := Option.some.inj h
      rw [if_pos rfl, items_cons]
    · rename_i hk
      rw [if_neg hk, items_cons, items_cons, ih h, add_left_comm]

theorem items_replace (h : find key m = some queue) :
    items (replace key queue' m) = tagged key queue' + items (erase key m) := by
  induction m with
  | nil => exact absurd h (by simp [find])
  | cons e rest ih =>
    unfold find at h
    unfold erase replace
    split at h
    · rename_i hk
      subst hk
      rw [if_pos rfl, if_pos rfl, items_cons]
    · rename_i hk
      rw [if_neg hk, if_neg hk, items_cons, items_cons, ih h, add_left_comm]

theorem Full.erase (h : m.Full) : (QueueMap.erase key m).Full := by
  induction m with
  | nil => exact h
  | cons e rest ih =>
    obtain ⟨hhead, hrest⟩ := forall_mem_cons.mp h
    unfold QueueMap.erase
    split
    · exact hrest
    · exact forall_mem_cons.mpr ⟨hhead, ih hrest⟩

theorem Full.replace (h : m.Full) (hq : queue' ≠ []) : (QueueMap.replace key queue' m).Full := by
  induction m with
  | nil => exact h
  | cons e rest ih =>
    obtain ⟨hhead, hrest⟩ := forall_mem_cons.mp h
    unfold QueueMap.replace
    split
    · exact forall_mem_cons.mpr ⟨hq, hrest⟩
    · exact forall_mem_cons.mpr ⟨hhead, ih hrest⟩

theorem Full.find_ne_nil (h : m.Full) (hf : find key m = some queue) : queue ≠ [] := by
  induction m with
  | nil => exact absurd hf (by simp [find])
  | cons e rest ih =>
    obtain ⟨hhead, hrest⟩ := forall_mem_cons.mp h
    unfold find at hf
    split at hf
    · obtain rfl := Option.some.inj hf
      exact hhead
    · exact ih hrest hf

end QueueMap

end CharmRuntime.Lib
