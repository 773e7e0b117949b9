import Mathlib.Data.List.DropRight
import XamlAssist.GraphCache

/-!
# The history of a cache

Whatever is done with a cache, and whatever its provider gives each time that it is asked, the graph
that is kept for some paths is the one of the first load of these paths since they were last
dropped. Main statement: `cache_history`, about every point of every run.
-/

namespace XamlAssist.GraphCache

open Files Conversion

/-- What is done with a cache. Each load meets a provider of its own, since files change. -/
inductive Operation
  | get (paths : List Path)
  | load (provider : Provider Id) (isCancelled : Bool) (paths : List Path)
  | invalidate (paths : List Path)
  | invalidateContaining (path : Path)
  | clear
  | size

inductive Answer
  | kept (graph : Option TypeGraph)
  | loaded (result : Except OpenError (Option TypeGraph))
  | found (found : Bool)
  | count (count : Nat)
  | done

/-- An operation with its answer and the lists of paths for which it opened sessions. -/
structure Event where
  operation : Operation
  answer : Answer
  opened : List (List Path)

/-- The provider, which notes down what it is asked to open. -/
def noted (provider : Provider Id) : Provider (StateM (List (List Path))) := fun paths => do
  modify (· ++ [paths])
  return provider paths

/-- Does an operation and notes down what is opened. -/
def perform (settings : Settings) (cache : GraphCache) :
    Operation → StateM (List (List Path)) (Answer × GraphCache)
  | .get paths => return (.kept (cache.get? paths), cache)
  | .load provider isCancelled paths => do
      let (result, cache) ← cache.getOrLoad (noted provider) settings isCancelled paths
      return (.loaded result, cache)
  | .invalidate paths => return (.found (cache.invalidate paths).1, (cache.invalidate paths).2)
  | .invalidateContaining path =>
      return (.count (cache.invalidateContaining path).1, (cache.invalidateContaining path).2)
  | .clear => return (.done, cache.clear)
  | .size => return (.count cache.size, cache)

/-- The event that an operation makes, and the cache behind it. -/
def respond (settings : Settings) (cache : GraphCache) (operation : Operation) :
    Event × GraphCache :=
  let result := (cache.perform settings operation).run []
  (⟨operation, result.1.1, result.2⟩, result.1.2)

/-- The events of a run from the empty cache, and the cache behind it. -/
def history (settings : Settings) (operations : List Operation) : List Event × GraphCache :=
  operations.foldl
    (fun run operation =>
      let response := run.2.respond settings operation
      (run.1 ++ [response.1], response.2))
    ([], {})

/-- Whether the operation drops what is kept for `key`. -/
def Event.drops (key : List Path) (event : Event) : Bool :=
  match event.operation with
  | .invalidate paths => samePaths paths key
  | .invalidateContaining path => key.any (·.sameAs path)
  | .clear => true
  | _ => false

/-- The graph that the operation loaded for `key`, from the files or from the cache. -/
def Event.loaded? (key : List Path) (event : Event) : Option TypeGraph :=
  match event.operation, event.answer with
  | .load _ _ paths, .loaded (.ok (some graph)) => if samePaths key paths then some graph else none
  | _, _ => none

/-- The events behind the last one that dropped `key`. -/
def sinceDrop (key : List Path) (events : List Event) : List Event :=
  events.rtakeWhile fun event => !event.drops key

variable {settings : Settings} {cache : GraphCache} {key paths : List Path}

/-! ### Lists of paths -/

private theorem samePaths_iff : samePaths key paths = true ↔
    key.map Path.components = paths.map Path.components := by
  simp [samePaths]

private theorem samePaths_congr {a b : List Path} (h : samePaths a b = true) (other : List Path) :
    samePaths a other = samePaths b other := by
  rw [samePaths_iff] at h
  simp [samePaths, h]

private theorem samePaths_comm (a b : List Path) : samePaths a b = samePaths b a := by
  simp [samePaths, eq_comm]

private theorem any_sameAs_congr {a b : List Path} (h : samePaths a b = true) (path : Path) :
    a.any (·.sameAs path) = b.any (·.sameAs path) := by
  have hmap (paths : List Path) : paths.any (·.sameAs path) =
      (paths.map Path.components).any (fun parts => decide (parts = path.components)) := by
    simp [Path.sameAs, Function.comp_def]
  rw [hmap, hmap, samePaths_iff.mp h]

private theorem get?_congr (h : samePaths key paths = true) :
    cache.get? key = cache.get? paths := by
  simp only [get?, samePaths_congr h]

/-! ### What an operation does to the graph of a key -/

private theorem get?_append (entry : List Path × TypeGraph) :
    get? ⟨cache.entries ++ [entry]⟩ key =
      (cache.get? key).or (if samePaths key entry.1 then some entry.2 else none) := by
  simp only [get?, List.find?_append, Option.map_or]
  by_cases h : samePaths key entry.1 = true <;> simp [List.find?, h]

private theorem get?_filter {drops : List Path → Bool}
    (hdrops : ∀ paths, samePaths key paths = true → drops paths = drops key) :
    get? ⟨cache.entries.filter (!drops ·.1)⟩ key = if drops key then none else cache.get? key := by
  have hfind (entry : List Path × TypeGraph) :
      (!drops entry.1 && samePaths key entry.1) = (!drops key && samePaths key entry.1) := by
    by_cases h : samePaths key entry.1 = true
    · simp [hdrops entry.1 h]
    · simp [h]
  by_cases h : drops key = true <;> simp [get?, List.find?_filter, hfind, h]

section Responses

variable (settings cache)

@[simp] theorem respond_get (paths : List Path) : cache.respond settings (.get paths) =
    (⟨.get paths, .kept (cache.get? paths), []⟩, cache) := rfl

@[simp] theorem respond_invalidate (paths : List Path) :
    cache.respond settings (.invalidate paths) =
      (⟨.invalidate paths, .found (cache.get? paths).isSome, []⟩,
        ⟨cache.entries.filter (!samePaths paths ·.1)⟩) := rfl

@[simp] theorem respond_invalidateContaining (path : Path) :
    cache.respond settings (.invalidateContaining path) =
      (⟨.invalidateContaining path,
          .count (cache.entries.countP (·.1.any (·.sameAs path))), []⟩,
        ⟨cache.entries.filter (!·.1.any (·.sameAs path))⟩) := rfl

@[simp] theorem respond_clear : cache.respond settings .clear = (⟨.clear, .done, []⟩, {}) := rfl

@[simp] theorem respond_size : cache.respond settings .size =
    (⟨.size, .count cache.size, []⟩, cache) := rfl

end Responses

variable {provider : Provider Id} {isCancelled : Bool}

private theorem respond_hit {graph : TypeGraph} (h : cache.get? paths = some graph) :
    cache.respond settings (.load provider isCancelled paths) =
      (⟨.load provider isCancelled paths, .loaded (.ok (some graph)), []⟩, cache) := by
  simp only [respond, perform, getOrLoad, h]
  rfl

private theorem respond_miss (h : cache.get? paths = none) :
    cache.respond settings (.load provider isCancelled paths) =
      (⟨.load provider isCancelled paths,
          .loaded (loadGraph provider settings isCancelled paths), [paths]⟩,
        cache.keep paths (loadGraph provider settings isCancelled paths)) := by
  simp only [respond, perform, getOrLoad, h]
  rfl

private theorem get?_keep (result : Except OpenError (Option TypeGraph)) :
    (cache.keep paths result).get? key = (cache.get? key).or
      (Event.loaded? key ⟨.load provider isCancelled paths, .loaded result, [paths]⟩) := by
  match result with
  | .ok (some graph) => exact get?_append (paths, graph)
  | .ok none => simp [keep, Event.loaded?]
  | .error failure => simp [keep, Event.loaded?]

/-- An operation drops the graph of a key, or leaves it, or loads it where there was none. -/
theorem get?_respond (operation : Operation) :
    (cache.respond settings operation).2.get? key =
      if (cache.respond settings operation).1.drops key then none
      else (cache.get? key).or ((cache.respond settings operation).1.loaded? key) := by
  cases operation with
  | get paths => simp [Event.drops, Event.loaded?]
  | size => simp [Event.drops, Event.loaded?]
  | clear => simp [Event.drops, get?]
  | invalidate paths =>
      have hsame (other : List Path) (h : samePaths key other = true) :
          samePaths paths other = samePaths paths key := by
        rw [samePaths_comm paths other, ← samePaths_congr h, samePaths_comm]
      simpa [Event.drops, Event.loaded?] using get?_filter hsame
  | invalidateContaining path =>
      have hsame (other : List Path) (h : samePaths key other = true) :
          other.any (·.sameAs path) = key.any (·.sameAs path) := (any_sameAs_congr h path).symm
      simp only [respond_invalidateContaining, Event.drops, Event.loaded?, Option.or_none]
      exact get?_filter hsame
  | load provider isCancelled paths =>
      cases hget : cache.get? paths with
      | none => simpa [respond_miss hget, Event.drops] using get?_keep _
      | some graph =>
          have hsame (h : samePaths key paths = true) : cache.get? key = some graph := by
            rw [get?_congr h, hget]
          by_cases h : samePaths key paths = true
          · simp [respond_hit hget, Event.drops, hsame h]
          · simp [respond_hit hget, Event.drops, Event.loaded?, h]

/-! ### Runs -/

private theorem history_concat (settings : Settings) (operations : List Operation)
    (operation : Operation) :
    history settings (operations ++ [operation]) =
      ((history settings operations).1 ++
          [((history settings operations).2.respond settings operation).1],
        ((history settings operations).2.respond settings operation).2) := by
  simp [history]

private theorem get?_history (settings : Settings) (operations : List Operation) (key : List Path) :
    (history settings operations).2.get? key =
      (sinceDrop key (history settings operations).1).findSome? (·.loaded? key) := by
  induction operations using List.reverseRecOn with
  | nil => rfl
  | append_singleton operations operation ih =>
      rw [history_concat, get?_respond, ih, sinceDrop, sinceDrop, List.rtakeWhile_concat]
      split <;> simp_all

/-- What holds of the entries at every point of a run: the lists are apart, and the graphs have no
ties to a session. -/
structure Sound (cache : GraphCache) : Prop where
  apart : cache.entries.Pairwise fun a b => samePaths a.1 b.1 = false
  released : ∀ entry ∈ cache.entries, entry.2.hasHandles = false

private theorem hasHandles_releaseHandles (graph : TypeGraph) :
    graph.releaseHandles.hasHandles = false := by
  simp [TypeGraph.hasHandles, TypeGraph.releaseHandles]

private theorem hasHandles_of_loadGraph {graph : TypeGraph}
    (h : loadGraph provider settings isCancelled paths = Except.ok (some graph)) :
    graph.hasHandles = false := by
  change (provider paths).map _ = _ at h
  cases hopen : provider paths with
  | error failure => simp [hopen, Except.map] at h
  | ok session =>
      simp only [hopen, Except.map, Except.ok.injEq, Option.map_eq_some_iff] at h
      obtain ⟨whole, -, rfl⟩ := h
      exact hasHandles_releaseHandles whole

theorem Sound.filter (h : cache.Sound) (keeps : List Path × TypeGraph → Bool) :
    Sound ⟨cache.entries.filter keeps⟩ :=
  ⟨h.apart.filter _, fun entry hentry => h.released entry (List.mem_of_mem_filter hentry)⟩

theorem Sound.keep (h : cache.Sound) (hget : cache.get? paths = none)
    (result : Except OpenError (Option TypeGraph))
    (hresult : ∀ graph, result = .ok (some graph) → graph.hasHandles = false) :
    (cache.keep paths result).Sound := by
  match result with
  | .error failure => exact h
  | .ok none => exact h
  | .ok (some graph) =>
      have hapart : ∀ entry ∈ cache.entries, samePaths entry.1 paths = false := by
        simpa [get?, samePaths_comm paths] using hget
      constructor
      · simpa [GraphCache.keep, List.pairwise_append, h.apart] using fun a b => hapart (a, b)
      · intro entry hentry
        rcases List.mem_append.mp hentry with hentry | hentry
        · exact h.released entry hentry
        · rw [List.mem_singleton.mp hentry]
          exact hresult graph rfl

private theorem Sound.respond (h : cache.Sound) (operation : Operation) :
    (cache.respond settings operation).2.Sound := by
  cases operation with
  | get paths => exact h
  | size => exact h
  | clear => exact ⟨.nil, by simp⟩
  | invalidate paths => exact h.filter _
  | invalidateContaining path => exact h.filter _
  | load provider isCancelled paths =>
      cases hget : cache.get? paths with
      | none =>
          rw [respond_miss hget]
          exact h.keep hget _ fun graph hgraph => hasHandles_of_loadGraph hgraph
      | some graph =>
          rw [respond_hit hget]
          exact h

private theorem sound_history (settings : Settings) (operations : List Operation) :
    (history settings operations).2.Sound := by
  induction operations using List.reverseRecOn with
  | nil => exact ⟨.nil, by simp [history]⟩
  | append_singleton operations operation ih =>
      rw [history_concat]
      exact ih.respond operation

/-! ### What an operation changes and counts -/

private theorem entries_respond_of_not_loaded {operation : Operation}
    (h : (∃ failure, (cache.respond settings operation).1.answer = .loaded (.error failure)) ∨
      (cache.respond settings operation).1.answer = .loaded (.ok none)) :
    (cache.respond settings operation).2.entries = cache.entries := by
  cases operation with
  | get | size | clear | invalidate | invalidateContaining => simp at h
  | load provider isCancelled paths =>
      cases hget : cache.get? paths with
      | some graph => rw [respond_hit hget]
      | none =>
          rw [respond_miss hget] at h ⊢
          rcases h with ⟨failure, hanswer⟩ | hanswer
          · rw [Answer.loaded.inj hanswer]
            rfl
          · rw [Answer.loaded.inj hanswer]
            rfl

private theorem size_invalidateContaining (cache : GraphCache) (path : Path) :
    (cache.invalidateContaining path).2.size + (cache.invalidateContaining path).1 =
      cache.size := by
  have hcount (p : List Path × TypeGraph → Bool) :
      (cache.entries.filter (!p ·)).length + cache.entries.countP p = cache.entries.length := by
    simpa [List.countP_eq_length_filter, Nat.add_comm] using
      (cache.entries.length_eq_countP_add_countP p).symm
  exact hcount _

private theorem mem_entries_invalidateContaining (cache : GraphCache) (path : Path)
    (entry : List Path × TypeGraph) :
    entry ∈ (cache.invalidateContaining path).2.entries ↔
      entry ∈ cache.entries ∧ ¬ ∃ member ∈ entry.1, member.sameAs path = true := by
  simp [invalidateContaining]

/-- At every point of every run, a graph is kept for a key exactly if it was loaded since the key
was last dropped, and it is the graph of the first such load. A load opens a session only if no
graph is kept. One that fails or is cancelled changes nothing. Invalidating a path drops the lists
with that path and counts them. No graph that is kept has ties to a session. -/
theorem cache_history (settings : Settings) (operations : List Operation)
    (operation : Operation) :
    let events := (history settings operations).1
    let cache := (history settings operations).2
    let event := (cache.respond settings operation).1
    let next := (cache.respond settings operation).2
    (∀ key, ((cache.get? key).isSome ↔ ∃ e ∈ sinceDrop key events, (e.loaded? key).isSome) ∧
      cache.get? key = (sinceDrop key events).findSome? (·.loaded? key)) ∧
    (∀ provider isCancelled paths, operation = .load provider isCancelled paths →
      (∀ graph, cache.get? paths = some graph →
        event.opened = [] ∧ event.answer = .loaded (.ok (some graph))) ∧
      (cache.get? paths = none → event.opened = [paths] ∧
        event.answer = .loaded (loadGraph provider settings isCancelled paths))) ∧
    ((∃ failure, event.answer = .loaded (.error failure)) ∨ event.answer = .loaded (.ok none) →
      next.entries = cache.entries) ∧
    (∀ path, operation = .invalidateContaining path →
      ∃ count, event.answer = .count count ∧ next.size + count = cache.size ∧
        ∀ entry, entry ∈ next.entries ↔
          entry ∈ cache.entries ∧ ¬ ∃ member ∈ entry.1, member.sameAs path = true) ∧
    (∀ entry ∈ cache.entries, entry.2.hasHandles = false) ∧
    cache.entries.Pairwise fun a b => samePaths a.1 b.1 = false := by
  intro events cache event next
  have hkept (key : List Path) :
      cache.get? key = (sinceDrop key events).findSome? (·.loaded? key) :=
    get?_history settings operations key
  have hsound : cache.Sound := sound_history settings operations
  refine ⟨fun key => ⟨?_, hkept key⟩, ?_, ?_, ?_, hsound.released, hsound.apart⟩
  · simp [hkept key, List.isSome_findSome?]
  · rintro provider isCancelled paths rfl
    refine ⟨fun graph hget => ?_, fun hget => ?_⟩
    · simp [event, respond_hit hget]
    · simp [event, respond_miss hget]
  · exact entries_respond_of_not_loaded
  · rintro path rfl
    exact ⟨_, rfl, size_invalidateContaining cache path,
      mem_entries_invalidateContaining cache path⟩

end XamlAssist.GraphCache
