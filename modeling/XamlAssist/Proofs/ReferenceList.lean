import Mathlib.Data.List.Induction
import XamlAssist.Proofs.Files.Spelling
import XamlAssist.ReferenceList

/-!
# The libraries of a reference list

Main statement: `libraryPaths_first_spellings`, the libraries are the primary one and then the
references, each path once and in its first spelling.
-/

namespace XamlAssist

open Files

/-- No path of the list has the components of another one in it. -/
def PairwiseOther (paths : List Path) : Prop :=
  paths.Pairwise fun a b => a.components ≠ b.components

/-- Neither the primary library nor one of the references before `place` has the path. -/
def IsFirst (primary : Path) (references : List Path) (path : Path) (place : Nat) : Prop :=
  ∀ other ∈ primary :: references.take place, other.components ≠ path.components

instance (primary : Path) (references : List Path) (path : Path) (place : Nat) :
    Decidable (IsFirst primary references path place) :=
  inferInstanceAs (Decidable (∀ other ∈ primary :: references.take place, _))

/-! ### One path -/

variable {paths : List Path} {path : Path}

private theorem addPath_of_mem (h : path.components ∈ paths.map Path.components) :
    addPath paths path = paths := by
  obtain ⟨other, hother, heq⟩ := List.mem_map.mp h
  exact if_pos (List.any_eq_true.mpr ⟨other, hother, decide_eq_true heq⟩)

private theorem addPath_of_not_mem (h : path.components ∉ paths.map Path.components) :
    addPath paths path = paths ++ [path] := by
  refine if_neg fun hany => h ?_
  obtain ⟨other, hother, hsame⟩ := List.any_eq_true.mp hany
  exact List.mem_map.mpr ⟨other, hother, of_decide_eq_true hsame⟩

private theorem mem_components_addPath (paths : List Path) (path : Path)
    (components : List Component) :
    components ∈ (addPath paths path).map Path.components ↔
      components ∈ paths.map Path.components ∨ components = path.components := by
  by_cases h : path.components ∈ paths.map Path.components
  · rw [addPath_of_mem h]
    exact ⟨.inl, fun hor => hor.elim id fun heq => heq ▸ h⟩
  · rw [addPath_of_not_mem h, List.map_append, List.mem_append, List.map_singleton,
      List.mem_singleton]

theorem PairwiseOther.addPath (h : PairwiseOther paths) (path : Path) :
    PairwiseOther (addPath paths path) := by
  by_cases hmem : path.components ∈ paths.map Path.components
  · rwa [addPath_of_mem hmem]
  · rw [addPath_of_not_mem hmem]
    refine List.pairwise_append.mpr ⟨h, List.pairwise_singleton _ _, ?_⟩
    intro other hother last hlast heq
    rw [List.mem_singleton.mp hlast] at heq
    exact hmem (List.mem_map.mpr ⟨other, hother, heq⟩)

/-! ### All references -/

variable (primary : Path) (references : List Path)

private theorem libraryPaths_concat (path : Path) :
    libraryPaths primary (references ++ [path]) =
      addPath (libraryPaths primary references) path := by
  simp [libraryPaths]

private theorem mem_components_libraryPaths (components : List Component) :
    components ∈ (libraryPaths primary references).map Path.components ↔
      components ∈ (primary :: references).map Path.components := by
  induction references using List.reverseRecOn with
  | nil => rfl
  | append_singleton references path ih =>
      rw [libraryPaths_concat, mem_components_addPath, ih, ← List.cons_append, List.map_append,
        List.mem_append, List.map_singleton, List.mem_singleton]

private theorem pairwiseOther_libraryPaths : PairwiseOther (libraryPaths primary references) := by
  induction references using List.reverseRecOn with
  | nil => exact List.pairwise_singleton _ _
  | append_singleton references path ih =>
      rw [libraryPaths_concat]
      exact ih.addPath path

private theorem isFirst_append_iff {place : Nat} (h : place ≤ references.length) (more : List Path)
    (path : Path) :
    IsFirst primary (references ++ more) path place ↔ IsFirst primary references path place := by
  rw [IsFirst, IsFirst, List.take_append_of_le_length h]

private theorem libraryPaths_eq_filter :
    libraryPaths primary references =
      primary :: (references.zipIdx.filter fun entry =>
        IsFirst primary references entry.1 entry.2).map Prod.fst := by
  induction references using List.reverseRecOn with
  | nil => rfl
  | append_singleton references path ih =>
      have hbefore : references.zipIdx.filter (fun entry =>
            IsFirst primary (references ++ [path]) entry.1 entry.2) =
          references.zipIdx.filter fun entry => IsFirst primary references entry.1 entry.2 := by
        refine List.filter_congr fun entry hentry => ?_
        have hplace : entry.2 ≤ references.length := by
          have hlt := List.snd_lt_of_mem_zipIdx hentry
          omega
        simp only [isFirst_append_iff primary references hplace]
      have hlast : IsFirst primary (references ++ [path]) path references.length ↔
          path.components ∉ (libraryPaths primary references).map Path.components := by
        rw [isFirst_append_iff primary references (Nat.le_refl _), mem_components_libraryPaths,
          IsFirst, List.take_length, List.mem_map, not_exists]
        simp only [not_and, ne_eq]
      rw [libraryPaths_concat, List.zipIdx_append, List.filter_append, List.map_append, hbefore,
        ← List.cons_append, ← ih]
      by_cases hmem : path.components ∈ (libraryPaths primary references).map Path.components
      · simp [addPath_of_mem hmem, hlast, hmem]
      · simp [addPath_of_not_mem hmem, hlast, hmem]

private theorem foldl_addPath {paths more : List Path} (h : PairwiseOther (paths ++ more)) :
    more.foldl addPath paths = paths ++ more := by
  induction more generalizing paths with
  | nil => simp
  | cons path more ih =>
      have hnew : path.components ∉ paths.map Path.components := by
        intro hmem
        obtain ⟨other, hother, heq⟩ := List.mem_map.mp hmem
        exact (List.pairwise_append.mp h).2.2 other hother path List.mem_cons_self heq
      rw [List.append_cons] at h ⊢
      rw [List.foldl_cons, addPath_of_not_mem hnew, ih h]

/-- The libraries start with the primary one; behind it come the references that are the first with
their components and do not have those of the primary one, in order and as they are spelled. So no
two of them have the same components, every reference has those of one of them, and adding them
again changes nothing. Two paths have the same components exactly if their spellings differ only in
slashes after a slash, dots between slashes and a slash at the end. -/
theorem libraryPaths_first_spellings (primary : Path) (references : List Path) :
    let paths := libraryPaths primary references
    paths = primary :: (references.zipIdx.filter fun entry =>
        IsFirst primary references entry.1 entry.2).map Prod.fst ∧
      paths.Pairwise (fun a b => a.components ≠ b.components) ∧
      (∀ reference ∈ references, ∃ path ∈ paths, path.components = reference.components) ∧
      libraryPaths primary paths = paths ∧
      ∀ a b : Path, a.components = b.components ↔ a.Respelled b := by
  intro paths
  have hpairwise : PairwiseOther paths := pairwiseOther_libraryPaths primary references
  have hpaths : paths = _ := libraryPaths_eq_filter primary references
  refine ⟨hpaths, hpairwise, fun reference hreference => ?_, ?_, Path.components_eq_iff_respelled⟩
  · have hmem := (mem_components_libraryPaths primary references reference.components).mpr
      (List.mem_map_of_mem (List.mem_cons_of_mem primary hreference))
    obtain ⟨path, hpath, heq⟩ := List.mem_map.mp hmem
    exact ⟨path, hpath, heq⟩
  · rw [hpaths] at hpairwise ⊢
    rw [libraryPaths, List.foldl_cons, addPath_of_mem (by simp)]
    exact foldl_addPath hpairwise

end XamlAssist
