import XamlAssist.Session

/-!
# Where the types of a session are

A handle is the place of a library in its session and the place of a type in that library, so it
leads back to the declaration.
-/

namespace XamlAssist.Session

variable {target : Option String} {libraries : List Library} {files : Files.Tree}

theorem libraries_getElem? (place : Nat) :
    (withTarget target libraries files).libraries[place]? =
      (libraries[place]?).map (SessionLibrary.ofLibrary place) := by
  simp [withTarget]

theorem map_name_libraries :
    (withTarget target libraries files).libraries.map SessionLibrary.name =
      libraries.map Library.name := by
  apply List.ext_getElem?
  intro place
  rw [List.getElem?_map, libraries_getElem?, List.getElem?_map, Option.map_map]
  rfl

/-- A type of a session stands where its handle says. -/
theorem exists_of_mem_types {type : SessionType}
    (h : type ∈ (withTarget target libraries files).types) :
    ∃ library decl, libraries[type.handle.library]? = some library ∧
      library.types[type.handle.index]? = some decl ∧
      type = SessionLibrary.ofDecl library.name type.handle decl := by
  obtain ⟨held, hheld, htype⟩ := List.mem_flatMap.mp h
  obtain ⟨place, hplace, rfl⟩ := List.mem_mapIdx.mp hheld
  obtain ⟨index, hindex, rfl⟩ := List.mem_mapIdx.mp htype
  exact ⟨libraries[place], libraries[place].types[index], List.getElem?_eq_getElem hplace,
    List.getElem?_eq_getElem hindex, rfl⟩

/-- The types of a session are told apart by their handles. -/
theorem eq_of_handle_eq {a b : SessionType} (ha : a ∈ (withTarget target libraries files).types)
    (hb : b ∈ (withTarget target libraries files).types) (h : a.handle = b.handle) : a = b := by
  obtain ⟨library, decl, hlibrary, hdecl, heq⟩ := exists_of_mem_types ha
  obtain ⟨library', decl', hlibrary', hdecl', heq'⟩ := exists_of_mem_types hb
  rw [h] at hlibrary hdecl heq
  obtain rfl := Option.some.inj (hlibrary.symm.trans hlibrary')
  obtain rfl := Option.some.inj (hdecl.symm.trans hdecl')
  exact heq.trans heq'.symm

theorem nodup_types : (withTarget target libraries files).types.Nodup := by
  rw [types, List.nodup_iff_pairwise_ne, List.pairwise_flatMap]
  constructor
  · intro library hlibrary
    obtain ⟨place, hplace, rfl⟩ := List.mem_mapIdx.mp hlibrary
    rw [List.pairwise_iff_getElem]
    intro i j hi hj hlt heq
    have hhandle := congrArg SessionType.handle heq
    simp only [SessionLibrary.ofLibrary, List.getElem_mapIdx, SessionLibrary.ofDecl,
      SessionType.handle, Handle.mk.injEq] at hhandle
    exact Nat.ne_of_lt hlt hhandle.2
  · rw [List.pairwise_iff_getElem]
    intro i j hi hj hlt a ha b hb heq
    simp only [withTarget, List.getElem_mapIdx] at ha hb
    obtain ⟨_, _, rfl⟩ := List.mem_mapIdx.mp ha
    obtain ⟨_, _, rfl⟩ := List.mem_mapIdx.mp hb
    have hhandle := congrArg SessionType.handle heq
    simp only [SessionLibrary.ofDecl, SessionType.handle, Handle.mk.injEq] at hhandle
    exact Nat.ne_of_lt hlt hhandle.1

end XamlAssist.Session
