import Mathlib.Data.Finset.Basic
import Mathlib.Data.List.Sort

namespace Lib

/-!
# Lists kept in ascending order of a key

A list in strictly ascending order of a numeric key is searched by its partition point and
updated there: the element of the key is overwritten, or a new element is inserted.  Such a
list is a finite map from keys to elements, and these lemmas say so.

* `Ascending key l` — the keys of `l` are strictly ascending;
* `partitionPoint`, `slot` — the position of the first element not below a key, and the
  element there if it has the key;
* `put` — overwrite or insert at the partition point;
* `slot_eq_some_iff`, `slot_put` — a lookup finds the element of a key, and `put` changes the
  lookup of its own key alone;
* `Ascending.eq_of_slot` — two ascending lists with the same lookups are equal;
* `slot_dropWhile_lt` — dropping the keys below a cut drops their lookups;
* `drop_partitionPoint`, `mem_take_of_key_le` — the elements above a key, and the first few
  of them;
* `find_reverse_takeWhile_eq_some_iff` — what a search from the back finds.
-/

variable {α : Type*} {key : α → ℕ}

/-- The keys of `l` are strictly ascending. -/
def Ascending (key : α → ℕ) (l : List α) : Prop := l.Pairwise (fun a b => key a < key b)

instance [DecidableEq α] (l : List α) : Decidable (Ascending key l) :=
  inferInstanceAs (Decidable (l.Pairwise _))

/-- How many leading elements satisfy `p`. -/
def partitionPoint (p : α → Bool) (l : List α) : ℕ := (l.takeWhile p).length

/-- The element of key `k`, looked up at the partition point. -/
def slot (key : α → ℕ) (k : ℕ) (l : List α) : Option α :=
  l[partitionPoint (fun a => key a < k) l]?.filter (fun a => key a = k)

/-- Store `a` at the partition point of its key: over the element of that key if there is
    one, before the first greater element otherwise. -/
def put (key : α → ℕ) (a : α) (l : List α) : List α :=
  let pos := partitionPoint (fun b => key b < key a) l
  if (slot key (key a) l).isSome then l.set pos a else l.insertIdx pos a

/-! ### The search, element by element -/

@[simp] theorem slot_nil (k : ℕ) : slot key k ([] : List α) = none := rfl

theorem slot_cons_lt {a : α} {l : List α} {k : ℕ} (h : key a < k) :
    slot key k (a :: l) = slot key k l := by
  simp [slot, partitionPoint, h]

theorem slot_cons_not_lt {a : α} {l : List α} {k : ℕ} (h : ¬ key a < k) :
    slot key k (a :: l) = if key a = k then some a else none := by
  simp [slot, partitionPoint, h, Option.filter]

theorem put_nil (a : α) : put key a [] = [a] := rfl

theorem put_cons_lt {a b : α} {l : List α} (h : key b < key a) :
    put key a (b :: l) = b :: put key a l := by
  rw [put, put, slot_cons_lt h]
  have hpos : partitionPoint (fun c => key c < key a) (b :: l) =
      partitionPoint (fun c => key c < key a) l + 1 := by
    simp [partitionPoint, h]
  rw [hpos]
  split <;> simp

theorem put_cons_eq {a b : α} {l : List α} (h : key b = key a) :
    put key a (b :: l) = a :: l := by
  have hpos : partitionPoint (fun c => key c < key a) (b :: l) = 0 := by
    simp [partitionPoint, h]
  rw [put, hpos, slot_cons_not_lt (by omega), if_pos h]
  simp

theorem put_cons_gt {a b : α} {l : List α} (h : key a < key b) :
    put key a (b :: l) = a :: b :: l := by
  have hlt : ¬ key b < key a := by omega
  have hpos : partitionPoint (fun c => key c < key a) (b :: l) = 0 := by
    simp [partitionPoint, hlt]
  rw [put, hpos, slot_cons_not_lt hlt, if_neg (Nat.ne_of_gt h)]
  simp

/-! ### Lookups in an ascending list -/

theorem Ascending.tail {a : α} {l : List α} (h : Ascending key (a :: l)) : Ascending key l :=
  (List.pairwise_cons.mp h).2

theorem Ascending.head_lt {a : α} {l : List α} (h : Ascending key (a :: l)) :
    ∀ b ∈ l, key a < key b :=
  (List.pairwise_cons.mp h).1

/-- A lookup finds the element that has the key. -/
theorem slot_eq_some_iff {l : List α} (hl : Ascending key l) {k : ℕ} {a : α} :
    slot key k l = some a ↔ a ∈ l ∧ key a = k := by
  induction l with
  | nil => simp
  | cons b l ih =>
    rcases Nat.lt_trichotomy (key b) k with hlt | heq | hgt
    · rw [slot_cons_lt hlt, ih hl.tail, List.mem_cons]
      constructor
      · rintro ⟨ha, hk⟩
        exact ⟨Or.inr ha, hk⟩
      · rintro ⟨rfl | ha, hk⟩
        · omega
        · exact ⟨ha, hk⟩
    · rw [slot_cons_not_lt (by omega), if_pos heq, Option.some.injEq, List.mem_cons]
      constructor
      · rintro rfl
        exact ⟨Or.inl rfl, heq⟩
      · rintro ⟨rfl | ha, hk⟩
        · rfl
        · have := hl.head_lt a ha
          omega
    · rw [slot_cons_not_lt (by omega), if_neg (by omega), List.mem_cons]
      constructor
      · exact fun h => absurd h (by simp)
      · rintro ⟨rfl | ha, hk⟩
        · omega
        · have := hl.head_lt a ha
          omega

theorem slot_eq_none_iff {l : List α} (hl : Ascending key l) {k : ℕ} :
    slot key k l = none ↔ ∀ a ∈ l, key a ≠ k := by
  rw [Option.eq_none_iff_forall_ne_some]
  simp only [ne_eq, slot_eq_some_iff hl, not_and]

theorem slot_of_mem {l : List α} (hl : Ascending key l) {a : α} (ha : a ∈ l) :
    slot key (key a) l = some a :=
  (slot_eq_some_iff hl).mpr ⟨ha, rfl⟩

theorem key_of_slot {l : List α} (hl : Ascending key l) {k : ℕ} {a : α}
    (h : slot key k l = some a) : key a = k :=
  ((slot_eq_some_iff hl).mp h).2

theorem mem_of_slot {l : List α} (hl : Ascending key l) {k : ℕ} {a : α}
    (h : slot key k l = some a) : a ∈ l :=
  ((slot_eq_some_iff hl).mp h).1

/-- Two ascending lists with the same lookups are equal. -/
theorem Ascending.eq_of_slot {l l' : List α} (hl : Ascending key l) (hl' : Ascending key l')
    (h : ∀ k, slot key k l = slot key k l') : l = l' := by
  have hmem : ∀ a, a ∈ l ↔ a ∈ l' := by
    intro a
    constructor
    · intro ha
      exact mem_of_slot hl' (h (key a) ▸ slot_of_mem hl ha)
    · intro ha
      exact mem_of_slot hl ((h (key a)).symm ▸ slot_of_mem hl' ha)
  have hnd : ∀ {l : List α}, Ascending key l → l.Nodup := fun hl =>
    hl.imp (fun hab hne => absurd hab (by rw [hne]; exact lt_irrefl _))
  refine List.Perm.eq_of_pairwise (fun a b _ _ hab hba => absurd hab (by omega)) hl hl' ?_
  exact (List.perm_ext_iff_of_nodup (hnd hl) (hnd hl')).mpr hmem

/-- Dropping from the front leaves nothing to drop exactly when nothing to drop stands behind
    something to keep. -/
theorem forall_mem_dropWhile_iff (p : α → Bool) (l : List α) :
    (∀ a ∈ l.dropWhile p, p a = false) ↔ l.Pairwise (fun a b => p b → p a) := by
  induction l with
  | nil => simp
  | cons a l ih =>
    rw [List.pairwise_cons]
    cases ha : p a with
    | true =>
      rw [List.dropWhile_cons_of_pos ha, ih]
      exact ⟨fun h => ⟨fun _ _ _ => rfl, h⟩, And.right⟩
    | false =>
      -- the first one is kept, so everything behind it stays
      rw [List.dropWhile_cons_of_neg (by simp [ha]), List.forall_mem_cons]
      constructor
      · rintro ⟨-, h⟩
        exact ⟨fun b hb hpb => hpb ▸ (h b hb).symm, ih.mp (fun b hb =>
          h b ((List.dropWhile_sublist p).subset hb))⟩
      · rintro ⟨h, -⟩
        exact ⟨ha, fun b hb => Bool.eq_false_iff.mpr (fun hpb => Bool.noConfusion (h b hb hpb))⟩

/-- Dropping the keys below a cut drops the lookups below it. -/
theorem mem_dropWhile_lt_iff {l : List α} (hl : Ascending key l) {cut : ℕ} {a : α} :
    a ∈ l.dropWhile (fun b => key b < cut) ↔ a ∈ l ∧ cut ≤ key a := by
  induction l with
  | nil => simp
  | cons b l ih =>
    by_cases hb : key b < cut
    · rw [List.dropWhile_cons_of_pos (by simpa using hb), ih hl.tail, List.mem_cons]
      constructor
      · rintro ⟨ha, hcut⟩
        exact ⟨Or.inr ha, hcut⟩
      · rintro ⟨rfl | ha, hcut⟩
        · omega
        · exact ⟨ha, hcut⟩
    · rw [List.dropWhile_cons_of_neg (by simpa using hb), List.mem_cons]
      refine ⟨fun h => ⟨h, ?_⟩, And.left⟩
      -- the first key that is kept is the smallest of those left
      rcases h with rfl | ha
      · omega
      · have := hl.head_lt a ha
        omega

theorem slot_dropWhile_lt {l : List α} (hl : Ascending key l) (cut k : ℕ) :
    slot key k (l.dropWhile (fun b => key b < cut)) = if k < cut then none else slot key k l := by
  have hdrop : Ascending key (l.dropWhile (fun b => key b < cut)) :=
    hl.sublist (List.dropWhile_sublist _)
  ext a
  rw [slot_eq_some_iff hdrop, mem_dropWhile_lt_iff hl]
  split
  · constructor
    · rintro ⟨⟨-, hcut⟩, rfl⟩
      omega
    · exact fun h => absurd h (by simp)
  · rw [slot_eq_some_iff hl]
    constructor
    · rintro ⟨⟨ha, -⟩, hk⟩
      exact ⟨ha, hk⟩
    · rintro ⟨ha, rfl⟩
      exact ⟨⟨ha, by omega⟩, rfl⟩

/-! ### Storing -/

/-- `put` leaves the elements of other keys and adds its own. -/
theorem mem_put {l : List α} (hl : Ascending key l) {a b : α} :
    b ∈ put key a l ↔ b = a ∨ (b ∈ l ∧ key b ≠ key a) := by
  induction l with
  | nil => simp [put_nil]
  | cons c l ih =>
    rcases Nat.lt_trichotomy (key c) (key a) with hlt | heq | hgt
    · rw [put_cons_lt hlt, List.mem_cons, ih hl.tail, List.mem_cons]
      constructor
      · rintro (rfl | rfl | ⟨hb, hk⟩)
        · exact Or.inr ⟨Or.inl rfl, by omega⟩
        · exact Or.inl rfl
        · exact Or.inr ⟨Or.inr hb, hk⟩
      · rintro (rfl | ⟨rfl | hb, hk⟩)
        · exact Or.inr (Or.inl rfl)
        · exact Or.inl rfl
        · exact Or.inr (Or.inr ⟨hb, hk⟩)
    · rw [put_cons_eq heq, List.mem_cons, List.mem_cons]
      constructor
      · rintro (rfl | hb)
        · exact Or.inl rfl
        · have := hl.head_lt b hb
          exact Or.inr ⟨Or.inr hb, by omega⟩
      · rintro (rfl | ⟨rfl | hb, hk⟩)
        · exact Or.inl rfl
        · exact absurd heq hk
        · exact Or.inr hb
    · rw [put_cons_gt hgt, List.mem_cons, List.mem_cons]
      refine or_congr_right ⟨fun hb => ⟨hb, ?_⟩, fun hb => hb.1⟩
      rcases hb with rfl | hb
      · omega
      · have := hl.head_lt b hb
        omega

theorem Ascending.put {l : List α} (hl : Ascending key l) (a : α) :
    Ascending key (put key a l) := by
  induction l with
  | nil => exact List.pairwise_singleton _ _
  | cons c l ih =>
    rcases Nat.lt_trichotomy (key c) (key a) with hlt | heq | hgt
    · rw [put_cons_lt hlt]
      refine List.pairwise_cons.mpr ⟨fun b hb => ?_, ih hl.tail⟩
      rcases (mem_put hl.tail).mp hb with rfl | ⟨hb, -⟩
      · exact hlt
      · exact hl.head_lt b hb
    · rw [put_cons_eq heq]
      exact List.pairwise_cons.mpr ⟨fun b hb => heq ▸ hl.head_lt b hb, hl.tail⟩
    · rw [put_cons_gt hgt]
      refine List.pairwise_cons.mpr ⟨fun b hb => ?_, hl⟩
      rcases List.mem_cons.mp hb with rfl | hb
      · exact hgt
      · exact lt_trans hgt (hl.head_lt b hb)

/-- A `put` changes the lookup of its own key alone. -/
theorem slot_put {l : List α} (hl : Ascending key l) (a : α) (k : ℕ) :
    slot key k (put key a l) = if k = key a then some a else slot key k l := by
  ext b
  rw [slot_eq_some_iff (hl.put a), mem_put hl]
  split
  · rename_i hk
    rw [Option.some.injEq]
    constructor
    · rintro ⟨rfl | ⟨-, hne⟩, hb⟩
      · rfl
      · exact absurd (hb.trans hk) hne
    · rintro rfl
      exact ⟨Or.inl rfl, hk.symm⟩
  · rename_i hk
    rw [slot_eq_some_iff hl]
    constructor
    · rintro ⟨rfl | ⟨hb, -⟩, hbk⟩
      · exact absurd hbk.symm hk
      · exact ⟨hb, hbk⟩
    · rintro ⟨hb, hbk⟩
      exact ⟨Or.inr ⟨hb, by omega⟩, hbk⟩

/-- Overwriting keeps the number of elements. -/
theorem length_put_of_some {l : List α} {a b : α} (h : slot key (key a) l = some b) :
    (put key a l).length = l.length := by
  rw [put, h]
  exact List.length_set

/-- Inserting adds one element. -/
theorem length_put_of_none {l : List α} {a : α} (h : slot key (key a) l = none) :
    (put key a l).length = l.length + 1 := by
  rw [put, h]
  exact List.length_insertIdx_of_le_length (List.takeWhile_prefix _).length_le _

/-- Removing the first element removes the lookup of its key alone. -/
theorem slot_tail {a : α} {l : List α} (hl : Ascending key (a :: l)) (k : ℕ) :
    slot key k l = if k = key a then none else slot key k (a :: l) := by
  split
  · rename_i hk
    rw [slot_eq_none_iff hl.tail]
    intro b hb
    have := hl.head_lt b hb
    omega
  · rename_i hk
    ext b
    rw [slot_eq_some_iff hl.tail, slot_eq_some_iff hl, List.mem_cons]
    constructor
    · rintro ⟨hb, hbk⟩
      exact ⟨Or.inr hb, hbk⟩
    · rintro ⟨rfl | hb, hbk⟩
      · exact absurd hbk.symm hk
      · exact ⟨hb, hbk⟩

/-- The partition point is at the front exactly when no element lies below the key. -/
theorem partitionPoint_eq_zero_iff {l : List α} (hl : Ascending key l) {k : ℕ} :
    partitionPoint (fun a => key a < k) l = 0 ↔ ∀ a ∈ l, k ≤ key a := by
  cases l with
  | nil => simp [partitionPoint]
  | cons a l =>
    by_cases ha : key a < k
    · simp only [partitionPoint, List.takeWhile_cons, ha, decide_true, if_true, List.length_cons,
        List.mem_cons, forall_eq_or_imp]
      omega
    · simp only [partitionPoint, List.takeWhile_cons, ha, decide_false, Bool.false_eq_true,
        if_false, List.length_nil, true_iff]
      intro b hb
      rcases List.mem_cons.mp hb with rfl | hb
      · omega
      · have := hl.head_lt b hb
        omega

/-! ### The elements above a key -/

/-- Skipping to the partition point of `key ≤ k` leaves the elements above `k`. -/
theorem drop_partitionPoint {l : List α} (hl : Ascending key l) (k : ℕ) :
    l.drop (partitionPoint (fun a => key a ≤ k) l) = l.filter (fun a => k < key a) := by
  induction l with
  | nil => rfl
  | cons a l ih =>
    by_cases ha : key a ≤ k
    · have hpos : partitionPoint (fun b => key b ≤ k) (a :: l) =
          partitionPoint (fun b => key b ≤ k) l + 1 := by
        simp [partitionPoint, ha]
      rw [hpos, List.drop_succ_cons, ih hl.tail,
        List.filter_cons_of_neg (by rw [decide_eq_true_eq]; omega)]
    · -- nothing is skipped: the first element is above `k`, and so are all others
      have hpos : partitionPoint (fun b => key b ≤ k) (a :: l) = 0 := by
        simp [partitionPoint, ha]
      rw [hpos, List.drop_zero]
      symm
      apply List.filter_eq_self.mpr
      intro b hb
      rw [decide_eq_true_eq]
      rcases List.mem_cons.mp hb with rfl | hb
      · omega
      · have := hl.head_lt b hb
        omega

/-- A prefix of an ascending list holds every element up to its last one. -/
theorem mem_take_of_key_le {l : List α} (hl : Ascending key l) {n : ℕ} {a b : α}
    (ha : a ∈ l) (hb : (l.take n).getLast? = some b) (hab : key a ≤ key b) : a ∈ l.take n := by
  rw [← List.take_append_drop n l] at ha hl
  rcases List.mem_append.mp ha with ha | ha
  · exact ha
  · have := (List.pairwise_append.mp hl).2.2 b (List.mem_of_getLast? hb) a ha
    omega

/-- Nothing in an ascending list lies above its last element. -/
theorem Ascending.key_le_getLast {l : List α} (hl : Ascending key l) {a b : α} (ha : a ∈ l)
    (hb : l.getLast? = some b) : key a ≤ key b := by
  obtain ⟨init, rfl⟩ := List.getLast?_eq_some_iff.mp hb
  rcases List.mem_append.mp ha with ha | ha
  · exact ((List.pairwise_append.mp hl).2.2 a ha b (List.mem_singleton_self b)).le
  · rw [List.mem_singleton.mp ha]

/-! ### Searches from the back -/

/-- In a descending list, what satisfies an upwards closed `p` is the front. -/
theorem mem_takeWhile_iff {p : α → Bool} {l : List α}
    (hl : l.Pairwise (fun a b => key b < key a)) (hp : ∀ a b, key a ≤ key b → p a → p b) {a : α} :
    a ∈ l.takeWhile p ↔ a ∈ l ∧ p a := by
  induction l with
  | nil => simp
  | cons c rest ih =>
    obtain ⟨hc, hrest⟩ := List.pairwise_cons.mp hl
    by_cases hpc : p c
    · rw [List.takeWhile_cons_of_pos hpc, List.mem_cons, List.mem_cons, ih hrest]
      constructor
      · rintro (rfl | ⟨ha, hpa⟩)
        · exact ⟨Or.inl rfl, hpc⟩
        · exact ⟨Or.inr ha, hpa⟩
      · rintro ⟨rfl | ha, hpa⟩
        · exact Or.inl rfl
        · exact Or.inr ⟨ha, hpa⟩
    · -- what lies behind is older still
      rw [List.takeWhile_cons_of_neg hpc]
      refine ⟨fun h => absurd h List.not_mem_nil, fun ⟨ha, hpa⟩ => absurd ?_ hpc⟩
      rcases List.mem_cons.mp ha with rfl | ha
      · exact hpa
      · exact hp a c (hc a ha).le hpa

/-- A search from the back of an ascending list, inside what is closed upwards, finds the
    greatest element that satisfies `q`. -/
theorem find_reverse_takeWhile_eq_some_iff {p q : α → Bool}
    {l : List α} (hl : Ascending key l) (hp : ∀ a b, key a ≤ key b → p a → p b) {a : α} :
    (l.reverse.takeWhile p).find? q = some a ↔
      a ∈ l ∧ p a ∧ q a ∧ ∀ b ∈ l, key a < key b → ¬ q b := by
  have hdesc : (l.reverse.takeWhile p).Pairwise (fun a b => key b < key a) :=
    (List.pairwise_reverse.mpr hl).sublist (List.takeWhile_sublist p)
  have hmem : ∀ b, b ∈ l.reverse.takeWhile p ↔ b ∈ l ∧ p b := fun b => by
    rw [mem_takeWhile_iff (List.pairwise_reverse.mpr hl) hp, List.mem_reverse]
  rw [List.find?_eq_some_iff_append]
  constructor
  · rintro ⟨hqa, newer, older, heq, hnewer⟩
    have ha := (hmem a).mp (heq ▸ List.mem_append_right _ List.mem_cons_self)
    refine ⟨ha.1, ha.2, hqa, fun b hb hlt => ?_⟩
    -- what lies above `a` was passed before it
    have hb : b ∈ newer ++ a :: older := heq ▸ (hmem b).mpr ⟨hb, hp a b hlt.le ha.2⟩
    rcases List.mem_append.mp hb with hb | hb
    · simpa using hnewer b hb
    · have hrest := (List.pairwise_append.mp (heq ▸ hdesc)).2.1
      rcases List.mem_cons.mp hb with rfl | hb
      · omega
      · have := (List.pairwise_cons.mp hrest).1 b hb
        omega
  · rintro ⟨ha, hpa, hqa, hmax⟩
    obtain ⟨newer, older, heq⟩ := List.append_of_mem ((hmem a).mpr ⟨ha, hpa⟩)
    refine ⟨hqa, newer, older, heq, fun b hb => ?_⟩
    have hlt := (List.pairwise_append.mp (heq ▸ hdesc)).2.2 b hb a List.mem_cons_self
    have hb := ((hmem b).mp (heq ▸ List.mem_append_left _ hb)).1
    simpa using hmax b hb hlt

end Lib
