import XamlAssist.GraphCache
import XamlAssist.Proofs.Conversion.Run

/-!
# Cancelled conversions

A conversion looks for its cancellation a number of times that depends on the session alone. One
look that finds it cancelled leaves nothing, and without such a look the graph is whole. There is no
look in a session without libraries, so its graph is made and kept even if the conversion is
cancelled from the start. Main statement: `cancelled_unless_no_libraries`.
-/

namespace XamlAssist

open Files Conversion

namespace Conversion

/-- What comes of a computation that looks for its cancellation: all or nothing. The looks are
numbered from `first` on. -/
inductive Watched {σ : Type} (isCancelled : Nat → Bool) (first count : Nat) (result : σ) :
    Option σ → Prop
  | cancelled {place : Nat} (hplace : place < count) (h : isCancelled (first + place) = true) :
      Watched isCancelled first count result none
  | finished (h : ∀ place < count, isCancelled (first + place) = false) :
      Watched isCancelled first count result (some result)

section Watched

variable {σ τ : Type} {isCancelled : Nat → Bool} {first count : Nat} {result : σ}
  {outcome : Option σ}

private theorem Watched.eq_some (h : Watched isCancelled first count result outcome)
    (hnever : ∀ place < count, isCancelled (first + place) = false) : outcome = some result := by
  cases h with
  | cancelled hplace hcancelled => exact absurd hcancelled (by simp [hnever _ hplace])
  | finished => rfl

private theorem Watched.eq_none (h : Watched isCancelled first count result outcome) {place : Nat}
    (hplace : place < count) (hcancelled : isCancelled (first + place) = true) :
    outcome = none := by
  cases h with
  | cancelled => rfl
  | finished hnever => exact absurd hcancelled (by simp [hnever place hplace])

/-- One computation after the other: the looks are counted on. -/
theorem Watched.bind {more : Nat} {answer : τ} (next : σ → Option τ)
    (h : Watched isCancelled first count result outcome)
    (hnext : Watched isCancelled (first + count) more answer (next result)) :
    Watched isCancelled first (count + more) answer (outcome >>= next) := by
  cases h with
  | cancelled hplace hcancelled => exact .cancelled (Nat.lt_add_right more hplace) hcancelled
  | finished hnever =>
      rw [Option.bind_eq_bind, Option.bind_some]
      generalize next result = last at hnext ⊢
      cases hnext with
      | @cancelled place hplace hcancelled =>
          rw [Nat.add_assoc] at hcancelled
          exact .cancelled (Nat.add_lt_add_left hplace count) hcancelled
      | finished hlater =>
          refine .finished fun place hplace => ?_
          by_cases hearly : place < count
          · exact hnever place hearly
          · obtain ⟨late, rfl⟩ := Nat.exists_eq_add_of_le (Nat.not_lt.mp hearly)
            rw [← Nat.add_assoc]
            exact hlater late (Nat.lt_of_add_lt_add_left hplace)

theorem Watched.map (f : σ → τ) (h : Watched isCancelled first count result outcome) :
    Watched isCancelled first count (f result) (outcome >>= fun value => some (f value)) := by
  cases h with
  | cancelled hplace hcancelled => exact .cancelled hplace hcancelled
  | finished hnever => exact .finished hnever

private theorem foldUnless_watched {α : Type} (isCancelled : Nat → Bool) (step : σ → α → σ)
    (look : Nat) (state : σ) (items : List α) :
    Watched isCancelled look items.length (items.foldl step state)
      (foldUnless isCancelled step look state items) := by
  induction items generalizing look state with
  | nil => exact .finished fun place hplace => absurd hplace (Nat.not_lt_zero place)
  | cons item items ih =>
      rw [foldUnless, List.length_cons, List.foldl_cons, Nat.add_comm]
      by_cases hlook : isCancelled look = true
      · rw [if_pos hlook]
        exact .cancelled (Nat.add_pos_left Nat.one_pos _) hlook
      · rw [if_neg hlook]
        have hfirst : Watched isCancelled look 1 (step state item) (some (step state item)) := by
          refine .finished fun place hplace => ?_
          rw [Nat.lt_one_iff.mp hplace]
          exact Bool.eq_false_iff.mpr hlook
        exact hfirst.bind (foldUnless isCancelled step (look + 1) · items) (ih _ _)

end Watched

/-- How often a conversion looks for its cancellation: twice for each library and once for each
offered type. -/
def looks (settings : Settings) (session : Session) : Nat :=
  session.libraries.length + ((Scope.allOffered ⟨settings, session⟩).length +
    session.libraries.length)

private theorem length_register (scope : Scope) :
    (register scope).1.length = scope.allOffered.length := by
  rw [← (registered_register scope).types_eq, List.length_map]

private theorem convertWatching_watched (isCancelled : Nat → Bool) (settings : Settings)
    (session : Session) :
    Watched isCancelled 0 (looks settings session) (convert settings session)
      (convertWatching isCancelled settings session) := by
  unfold looks
  rw [← length_register]
  refine .bind _ (foldUnless_watched isCancelled (registerLibrary ⟨settings, session⟩) 0 ([], {})
    session.libraries) ?_
  rw [Nat.zero_add]
  refine .bind _ (foldUnless_watched isCancelled (harvest ⟨settings, session⟩) _ _ _) ?_
  let harvested : Builder := (register ⟨settings, session⟩).1.foldl (harvest ⟨settings, session⟩)
    (register ⟨settings, session⟩).2
  exact .map (fun graph => (addLateHints ⟨settings, session⟩ _ { harvested with graph }).graph)
    (foldUnless_watched isCancelled (addLibrary session) _ _ _)

section

variable {settings : Settings} {session : Session}

private theorem convertUnless_false : convertUnless false settings session =
    some (convert settings session) :=
  (convertWatching_watched _ settings session).eq_some fun _ _ => rfl

private theorem convertUnless_true : convertUnless true settings session =
    if session.libraries.isEmpty then some (convert settings session) else none := by
  have hwatched := convertWatching_watched (fun _ => true) settings session
  by_cases h : session.libraries = []
  · have hlooks : looks settings session = 0 := by
      simp [looks, Scope.allOffered, h]
    rw [List.isEmpty_iff.mpr h, if_pos rfl]
    refine hwatched.eq_some fun look hlook => ?_
    rw [hlooks] at hlook
    exact absurd hlook (Nat.not_lt_zero look)
  · have hlooks : 0 < looks settings session :=
      Nat.add_pos_left (List.length_pos_iff.mpr h) _
    rw [if_neg (mt List.isEmpty_iff.mp h)]
    exact hwatched.eq_none hlooks rfl

end

end Conversion

namespace GraphCache

/-- What a load that is cancelled from the start answers, and the cache behind it. -/
def cancelledLoad (cache : GraphCache) (settings : Settings) (paths : List Path) :
    Except OpenError Session → Except OpenError (Option TypeGraph) × GraphCache
  | .error failure => (.error failure, cache)
  | .ok session =>
      if session.libraries.isEmpty then
        let graph := (convert settings session).releaseHandles
        (.ok (some graph), ⟨cache.entries ++ [(paths, graph)]⟩)
      else (.ok none, cache)

private theorem keep_cancelled (cache : GraphCache) (settings : Settings) (paths : List Path)
    (opened : Except OpenError Session) :
    let result := opened.map fun session =>
      (convertUnless true settings session).map TypeGraph.releaseHandles
    (result, cache.keep paths result) = cache.cancelledLoad settings paths opened := by
  cases opened with
  | error failure => rfl
  | ok session =>
      rw [cancelledLoad, Except.map, convertUnless_true]
      split <;> rfl

end GraphCache

/-- A conversion that is cancelled from the start gives nothing exactly if there is a library, and a
load of paths without a graph then leaves the cache as it was. Without a library the graph is made
and kept. -/
theorem cancelled_unless_no_libraries (settings : Settings) :
    (∀ session : Session,
      convertUnless false settings session = some (convert settings session) ∧
        convertUnless true settings session =
          if session.libraries.isEmpty then some (convert settings session) else none) ∧
      ∀ {m : Type → Type} [Monad m] [LawfulMonad m] (provider : Provider m) (cache : GraphCache)
        (paths : List Path), cache.get? paths = none →
          cache.getOrLoad provider settings true paths =
            cache.cancelledLoad settings paths <$> provider paths := by
  refine ⟨fun session => ⟨convertUnless_false, convertUnless_true⟩, ?_⟩
  intro m _ _ provider cache paths hget
  rw [GraphCache.getOrLoad, hget]
  dsimp only [loadGraph]
  rw [bind_assoc, map_eq_pure_bind]
  refine bind_congr fun opened => ?_
  rw [pure_bind, GraphCache.keep_cancelled]

/-- One library is opened and the other path leads nowhere: the first load is cancelled, and the
second keeps a graph. -/
theorem cancelled_unless_no_libraries_twoLoads :
    let opening : Provider Id := fun _ => return .ok (Session.ofLibraries [{ name := "App" }] {})
    let missing : Provider Id := Provider.ofFiles {}
    let seeded := (convert {} (Session.ofPaths {} [⟨"no.json"⟩])).releaseHandles
    GraphCache.get? {} [⟨"app.json"⟩] = none ∧ GraphCache.get? {} [⟨"no.json"⟩] = none ∧
      GraphCache.getOrLoad {} opening {} true [⟨"app.json"⟩] = (.ok none, {}) ∧
      GraphCache.getOrLoad {} missing {} true [⟨"no.json"⟩] =
        (.ok (some seeded), ⟨[([⟨"no.json"⟩], seeded)]⟩) := by
  intro opening missing seeded
  have hload := (cancelled_unless_no_libraries {}).2 (m := Id)
  refine ⟨rfl, rfl, hload opening {} _ rfl, (hload missing {} _ rfl).trans ?_⟩
  rfl

/-- A session without libraries has a graph even if its conversion is cancelled. -/
theorem convertUnless_true_empty :
    convertUnless true {} (Session.ofLibraries [] {}) ≠ none := by
  rw [convertUnless_true]
  exact Option.some_ne_none _

end XamlAssist
