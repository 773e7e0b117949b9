import XamlAssist.Ordered

/-!
# The first of several elements

Where several elements of a list have the same name, the first one hides the others, and elements
that are put into a list are there once.
-/

namespace XamlAssist

section FirstOfEach

variable {α : Type} (key : α → String)

/-- The elements of a list whose key no element before them has. -/
def firstOfEach : List α → List α
  | [] => []
  | a :: as => a :: (firstOfEach as).filter fun b => key b ≠ key a

theorem mem_of_mem_firstOfEach {as : List α} {a : α} (h : a ∈ firstOfEach key as) : a ∈ as := by
  induction as with
  | nil => exact h
  | cons b as ih =>
      rcases List.mem_cons.mp h with rfl | h
      · exact List.mem_cons_self
      · exact List.mem_cons_of_mem b (ih (List.mem_filter.mp h).1)

theorem mem_map_firstOfEach (as : List α) (name : String) :
    name ∈ (firstOfEach key as).map key ↔ name ∈ as.map key := by
  induction as with
  | nil => exact Iff.rfl
  | cons a as ih =>
      by_cases hname : name = key a
      · simp [firstOfEach, hname]
      · have hne : key a ≠ name := fun h => hname h.symm
        simp only [List.mem_map] at ih
        simp only [firstOfEach, List.map_cons, List.mem_cons, hname, false_or, List.mem_map,
          List.mem_filter, decide_eq_true_eq]
        rw [← ih]
        constructor
        · intro h
          obtain ⟨b, ⟨hb, -⟩, hkey⟩ := h
          exact ⟨b, hb, hkey⟩
        · intro h
          obtain ⟨b, hb, hkey⟩ := h
          exact ⟨b, ⟨hb, fun heq => hne (heq.symm.trans hkey)⟩, hkey⟩

private theorem firstOfEach_concat_of_not_mem {as : List α} {a : α} (h : key a ∉ as.map key) :
    firstOfEach key (as ++ [a]) = firstOfEach key as ++ [a] := by
  induction as with
  | nil => rfl
  | cons b as ih =>
      rw [List.map_cons, List.mem_cons, not_or] at h
      rw [List.cons_append, firstOfEach, firstOfEach, ih h.2, List.filter_append]
      simp [h.1]

private theorem firstOfEach_concat_of_mem {as : List α} {a : α} (h : key a ∈ as.map key) :
    firstOfEach key (as ++ [a]) = firstOfEach key as := by
  induction as with
  | nil => exact absurd h (by simp)
  | cons b as ih =>
      rw [List.cons_append, firstOfEach, firstOfEach]
      by_cases hmem : key a ∈ as.map key
      · rw [ih hmem]
      · have hkey : key a = key b := by
          rcases List.mem_cons.mp h with hkey | hkey
          · exact hkey
          · exact absurd hkey hmem
        rw [firstOfEach_concat_of_not_mem key hmem, List.filter_append]
        simp [hkey]

variable {β σ : Type} (seen : β → Bool) (embed : β → α) (holds : σ → List α → Prop)
  {step : σ → β → σ}

/-- A pass that takes the items that are seen and have a new key, and skips all others, ends with
the first of each key. -/
theorem foldl_firstOfEach
    (hskip : ∀ state taken item, holds state taken →
      seen item = false ∨ key (embed item) ∈ taken.map key → step state item = state)
    (htake : ∀ state taken item, holds state taken → seen item = true →
      key (embed item) ∉ taken.map key → holds (step state item) (taken ++ [embed item]))
    (items : List β) {state : σ} {before : List α} (h : holds state (firstOfEach key before)) :
    holds (items.foldl step state)
      (firstOfEach key (before ++ (items.filter seen).map embed)) := by
  induction items generalizing before state with
  | nil =>
      rw [List.filter_nil, List.map_nil, List.append_nil]
      exact h
  | cons item items ih =>
      rw [List.foldl_cons]
      cases hseen : seen item with
      | false =>
          rw [List.filter_cons_of_neg (by simp [hseen]), hskip state _ item h (.inl hseen)]
          exact ih h
      | true =>
          rw [List.filter_cons_of_pos hseen, List.map_cons, List.append_cons]
          apply ih
          by_cases hknown : key (embed item) ∈ (firstOfEach key before).map key
          · rw [hskip state _ item h (.inr hknown),
              firstOfEach_concat_of_mem key ((mem_map_firstOfEach key before _).mp hknown)]
            exact h
          · have hnew : key (embed item) ∉ before.map key := by
              rwa [← mem_map_firstOfEach]
            rw [firstOfEach_concat_of_not_mem key hnew]
            exact htake state _ item h hseen hknown

end FirstOfEach

/-! ### Lists without repetitions -/

section InsertAllNew

variable {α : Type} [BEq α] [LawfulBEq α]

omit [LawfulBEq α] in
theorem insertAllNew_append (xs ys zs : List α) :
    insertAllNew xs (ys ++ zs) = insertAllNew (insertAllNew xs ys) zs :=
  List.foldl_append

theorem mem_insertAllNew {xs ys : List α} {x : α} :
    x ∈ insertAllNew xs ys ↔ x ∈ xs ∨ x ∈ ys := by
  unfold insertAllNew
  induction ys generalizing xs with
  | nil => simp
  | cons y ys ih => rw [List.foldl_cons, ih, mem_insertNew, List.mem_cons, or_assoc]

theorem nodup_insertAllNew {xs : List α} (h : xs.Nodup) (ys : List α) :
    (insertAllNew xs ys).Nodup := by
  unfold insertAllNew
  induction ys generalizing xs with
  | nil => exact h
  | cons y ys ih => exact ih (nodup_insertNew h y)

theorem insertAllNew_of_subset {xs ys : List α} (h : ∀ y ∈ ys, y ∈ xs) :
    insertAllNew xs ys = xs := by
  unfold insertAllNew
  induction ys with
  | nil => rfl
  | cons y ys ih =>
      have hy : insertNew xs y = xs :=
        if_pos (List.contains_iff_mem.mpr (h y List.mem_cons_self))
      rw [List.foldl_cons, hy]
      exact ih fun other hother => h other (List.mem_cons_of_mem y hother)

theorem insertAllNew_of_nodup {xs ys : List α} (h : (xs ++ ys).Nodup) :
    insertAllNew xs ys = xs ++ ys := by
  unfold insertAllNew
  induction ys generalizing xs with
  | nil => rw [List.foldl_nil, List.append_nil]
  | cons y ys ih =>
      rw [List.append_cons] at h
      have hy : y ∉ xs := fun hmem => by
        have hapart := (List.nodup_append.mp (List.nodup_append.mp h).1).2.2
        exact hapart y hmem y List.mem_cons_self rfl
      have hinsert : insertNew xs y = xs ++ [y] :=
        if_neg fun hcontains => hy (List.contains_iff_mem.mp hcontains)
      rw [List.foldl_cons, hinsert, ih h, List.append_assoc, List.singleton_append]

end InsertAllNew

/-! ### Maps -/

namespace OrderedMap

variable {κ α β : Type} [BEq κ] [LawfulBEq κ]

/-- The last pair for a key. -/
def IsLastPair (pairs : List (κ × α)) (key : κ) (value : α) : Prop :=
  ∃ before after, pairs = before ++ (key, value) :: after ∧ ∀ pair ∈ after, pair.1 ≠ key

theorem lookup_singleton_of_ne {key name : κ} (h : key ≠ name) (value : α) :
    [(name, value)].lookup key = none := by
  rw [List.lookup_cons, beq_eq_false_iff_ne.mpr h, List.lookup_nil]

private theorem get?_insert (map : OrderedMap κ α) (name : κ) (value : α) (key : κ) :
    (map.insert name value).get? key = ([(name, value)].lookup key).or (map.get? key) := by
  by_cases h : key = name
  · rw [h, get?_insert_self, List.lookup_cons_self, Option.some_or]
  · rw [get?_insert_of_ne map h, lookup_singleton_of_ne h, Option.none_or]

/-- Where pairs are set one after the other, the last pair for a key counts. -/
theorem get?_foldl_insert (pairs : List (κ × α)) (map : OrderedMap κ α) (key : κ) :
    (pairs.foldl (fun map pair => map.insert pair.1 pair.2) map).get? key =
      (pairs.reverse.lookup key).or (map.get? key) := by
  induction pairs generalizing map with
  | nil => rfl
  | cons pair pairs ih =>
      rw [List.foldl_cons, ih, get?_insert, List.reverse_cons, List.lookup_append, Option.or_assoc]

theorem lookup_reverse_eq_some_iff {pairs : List (κ × α)} {key : κ} {value : α} :
    pairs.reverse.lookup key = some value ↔ IsLastPair pairs key value := by
  rw [List.lookup_eq_some_iff]
  constructor
  · rintro ⟨after, before, hpairs, hafter⟩
    refine ⟨before.reverse, after.reverse, ?_, fun pair hpair heq => ?_⟩
    · rw [← List.reverse_reverse pairs, hpairs]
      simp
    · exact bne_iff_ne.mp (hafter pair (List.mem_reverse.mp hpair)) heq.symm
  · rintro ⟨before, after, rfl, hafter⟩
    refine ⟨after.reverse, before.reverse, by simp, fun pair hpair => ?_⟩
    exact bne_iff_ne.mpr (Ne.symm (hafter pair (List.mem_reverse.mp hpair)))

theorem get?_insertIfNew (map : OrderedMap κ α) (name : κ) (value : α) (key : κ) :
    (map.insertIfNew name value).get? key = (map.get? key).or ([(name, value)].lookup key) := by
  unfold insertIfNew
  by_cases hkey : key = name
  · subst hkey
    cases hmap : map.get? key with
    | some old => simp [contains, hmap]
    | none => simp [contains, hmap]
  · rw [lookup_singleton_of_ne hkey, Option.or_none]
    split
    · rfl
    · exact get?_insert_of_ne map hkey value

/-- Where pairs are set one after the other unless the key is there, the first pair for a key
counts. -/
theorem get?_foldl_insertIfNew (pairs : List (κ × β)) (change : β → α) (map : OrderedMap κ α)
    (key : κ) :
    (pairs.foldl (fun map pair => map.insertIfNew pair.1 (change pair.2)) map).get? key =
      (map.get? key).or ((pairs.lookup key).map change) := by
  induction pairs generalizing map with
  | nil => simp
  | cons pair pairs ih =>
      obtain ⟨name, value⟩ := pair
      rw [List.foldl_cons, ih, get?_insertIfNew, Option.or_assoc]
      by_cases hkey : key = name
      · rw [hkey, List.lookup_cons_self, List.lookup_cons_self, Option.some_or, Option.map_some]
      · rw [lookup_singleton_of_ne hkey, Option.none_or, List.lookup_cons,
          beq_eq_false_iff_ne.mpr hkey]

end OrderedMap

end XamlAssist
