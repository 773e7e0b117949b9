import XamlAssist.Proofs.Extension.ArgumentReading

/-!
# Reading a well-formed extension

A nested extension sets the one around it aside and brings it back behind that argument. So reading
a whole extension leads outside, and a caret inside of it is in the innermost extension around the
caret.

Main statement: `upTo_wellFormed`.
-/

namespace XamlAssist.Extension

open Text

open Cursor

namespace Reading

/-! ### Whole extensions -/

/-- The reading is in the name of an extension, which starts at `start`. -/
structure InName (r : Reading) (start : Nat) (outer : List Level) : Prop where
  literal : r.literal = false
  level : r.level = { phase := .name, nameStart := start }
  outer : r.outer = outer

/-- What a reading is behind the `}` of the extension `placed`: in the extension around it, or
outside. -/
def Leaves (r : Reading) (placed : Nat × Ext) (commas : Nat) : List Level → Prop
  | [] => r.At (fun level => level.phase = .outside) placed commas []
  | level :: outer =>
      r.literal = false ∧ (∃ pos, r.level = level.goOnAt pos) ∧ r.outer = outer

section Whole

variable {r : Reading} {c : Char} {start : Nat} {placed : Nat × Ext} {commas : Nat}
  {outer : List Level}

private theorem InName.step_lead (h : r.InName r.pos outer) (hc : isAsciiBlank c = true) :
    (r.step c).InName (r.step c).pos outer := by
  have hsize := utf8Size_of_isAsciiBlank hc
  obtain ⟨-, -, -, hclose, -⟩ := ne_of_isAsciiBlank hc
  have hreact : r.react c = { r with level.nameStart := r.pos + 1 } := by
    simp [react, accept, readName, h.level, hc, hclose]
  constructor <;> simp [step, h.literal, hreact, h.level, h.outer, hsize]

private theorem InName.step_token (h : r.InName start outer) (hc : isTokenChar c = true) :
    (r.step c).InName start outer := by
  obtain ⟨hblank, -, hcomma, -, hclose, -⟩ := ne_of_isTokenChar hc
  have hreact : r.react c = r.toCursor := by
    simp [react, accept, readName, h.level, hblank, hcomma, hclose]
  constructor <;> simp [step, h.literal, hreact, h.level, h.outer]

theorem InName.step_blank (h : r.InName (placed.2.nameStart placed.1) outer)
    (hpos : r.pos = placed.2.nameStop placed.1) (hlt : placed.2.nameStart placed.1 < r.pos)
    (hc : isAsciiBlank c = true) : (r.step c).At Level.IsFresh placed 0 outer := by
  obtain ⟨-, -, -, hclose, -⟩ := ne_of_isAsciiBlank hc
  have hreact : r.react c = r.endName.moveTo .value := by
    simp [react, accept, readName, h.level, hc, hclose, endName, moveTo, Nat.ne_of_gt hlt]
  constructor <;>
    simp [step, h.literal, hreact, h.level, h.outer, hpos, endName, moveTo, Level.IsFresh]

private theorem At.leaves {q : Reading} {P : Level → Prop} (h : q.At P placed commas outer)
    (hliteral : r.literal = false) (hreact : r.react '}' = q.close) :
    (r.step '}').Leaves placed commas outer := by
  cases outer with
  | nil =>
      have hclose : q.close = q.moveTo .outside := by
        rw [close, h.outer]
      constructor <;>
        simp [step, hliteral, hreact, hclose, moveTo, h.literal, h.nameStart, h.nameStop, h.commas,
          h.outer]
  | cons level outer =>
      have hclose : q.close = { q with level := level.goOnAt q.pos, outer } := by
        rw [close, h.outer]
        rfl
      exact ⟨by simp [step, hliteral, hreact, hclose, h.literal],
        ⟨q.pos, by simp [step, hliteral, hreact, hclose]⟩,
        by simp [step, hliteral, hreact, hclose]⟩

private theorem InName.step_close (h : r.InName (placed.2.nameStart placed.1) outer)
    (hpos : r.pos = placed.2.nameStop placed.1) (hlt : placed.2.nameStart placed.1 < r.pos) :
    (r.step '}').Leaves placed 0 outer := by
  have hblank : isAsciiBlank '}' = false := rfl
  have hreact : r.react '}' = r.endName.close := by
    simp [react, accept, readName, h.level, hblank, Nat.ne_of_gt hlt]
  have hend : Reading.At { r with toCursor := r.endName } (fun _ => True) placed 0 outer := by
    constructor <;> simp [endName, h.literal, h.level, h.outer, hpos]
  exact hend.leaves h.literal hreact

private theorem At.step_close (h : r.At Level.IsRest placed commas outer) :
    (r.step '}').Leaves placed commas outer := by
  have hblank : isAsciiBlank '}' = false := rfl
  rcases h.place with ⟨hphase, hquotes⟩ | hphase | hphase | hphase
  · have hend : Reading.At { r with toCursor := r.endValue r.trimmedPos } (fun _ => True) placed
        commas outer := { h with place := trivial }
    exact hend.leaves h.literal (by simp [react, accept, readValue, *])
  · exact h.leaves h.literal (by simp [react, accept, readArgumentName, *])
  · exact h.leaves h.literal (by simp [react, accept, readAfterName, *])
  · exact h.leaves h.literal (by simp [react, accept, *])

theorem At.step_open (h : r.At Level.AwaitsValue placed commas outer) :
    (r.step '{').InName (r.step '{').pos (r.setAside :: outer) := by
  have hblank : isAsciiBlank '{' = false := rfl
  have hreact : r.react '{' = r.openNested := by
    rcases h.place with ⟨hphase | hphase, hargument⟩ | hphase
    · simp [react, accept, readValue, *]
    · simp [react, accept, readArgumentName, *]
    · simp [react, accept, readBeforeValue, *]
  constructor
  · simp [step, h.literal, hreact, openNested]
  · simp [step, h.literal, hreact, openNested]
    rfl
  · simp [step, h.literal, hreact, openNested, h.outer, setAside]

private theorem At.back {q : Reading} {P : Level → Prop} (h : r.At P placed commas outer)
    {inner : Nat × Ext} {n : Nat} (hq : q.Leaves inner n (r.setAside :: outer)) :
    q.At Level.IsRest placed commas outer := by
  obtain ⟨hliteral, ⟨pos, hlevel⟩, houter⟩ := hq
  exact ⟨hliteral, by rw [hlevel]; exact h.nameStart, by rw [hlevel]; exact h.nameStop,
    by rw [hlevel]; exact h.commas, houter, by rw [hlevel]; exact .inr (.inr (.inr rfl))⟩

theorem InName.lead (h : r.InName r.pos outer) {s : List Char}
    (hs : ∀ c ∈ s, isAsciiBlank c = true) : (r.readAll s).InName (r.pos + byteLength s) outer := by
  induction s generalizing r with
  | nil => exact h
  | cons c s ih =>
      have hrest := ih (h.step_lead (hs c List.mem_cons_self)) fun d hd =>
        hs d (List.mem_cons_of_mem c hd)
      rwa [step_pos, Nat.add_assoc] at hrest

theorem InName.token (h : r.InName start outer) {s : List Char}
    (hs : ∀ c ∈ s, isTokenChar c = true) : (r.readAll s).InName start outer := by
  induction s generalizing r with
  | nil => exact h
  | cons c s ih =>
      exact ih (h.step_token (hs c List.mem_cons_self)) fun d hd => hs d (List.mem_cons_of_mem c hd)

/-- The reading has just read the name of `placed`. -/
structure Named (r : Reading) (placed : Nat × Ext) (outer : List Level) : Prop where
  inName : r.InName (placed.2.nameStart placed.1) outer
  pos : r.pos = placed.2.nameStop placed.1

theorem InName.named (h : r.InName r.pos outer) (hpos : r.pos = start + 1) (ext : Ext) :
    (r.readAll (ext.lead.chars ++ ext.name.chars)).Named (start, ext) outer := by
  rw [readAll_append]
  constructor
  · have hlead := h.lead ext.lead.blank
    rw [hpos] at hlead
    exact hlead.token ext.name.plain
  · simp only [readAll_pos, hpos, Ext.nameStop, Ext.nameStart]

theorem Named.shows (h : r.Named placed outer) : r.Shows placed outer :=
  ⟨h.inName.literal, by simp [h.inName.level], by simp [h.inName.level, h.pos], h.inName.outer⟩

theorem Named.lt (h : r.Named placed outer) : placed.2.nameStart placed.1 < r.pos := by
  have hname := byteLength_pos placed.2.name.nonempty
  rw [h.pos, Ext.nameStop]
  omega

private theorem Named.leads_gap (h : r.Named placed outer) (gap : Blanks) (hgap : gap.chars ≠ []) :
    r.Leads gap.chars Level.IsFresh placed 0 outer := by
  obtain ⟨chars, hblank⟩ := gap
  cases chars with
  | nil => exact absurd rfl hgap
  | cons c cs =>
      have hfirst := h.inName.step_blank h.pos h.lt (hblank c List.mem_cons_self)
      exact .cons h.shows (hfirst.leads_of_stays At.step_fresh_blank fun d hd =>
        hblank d (List.mem_cons_of_mem c hd))

private theorem Named.leaves (h : r.Named placed outer) (trail : Blanks) :
    (r.readAll (trail.chars ++ ['}'])).Leaves placed 0 outer := by
  rw [readAll_append]
  by_cases htrail : trail.chars = []
  · rw [htrail]
    exact h.inName.step_close h.pos h.lt
  · exact ((h.leads_gap trail htrail).arrives.mono fun _ => Level.IsFresh.isRest).step_close

end Whole

mutual

/-- Behind the `}` of a well-formed extension. -/
theorem leaves_ext (ext : Ext) {r : Reading} {start : Nat} {outer : List Level}
    (h : r.InName r.pos outer) (hpos : r.pos = start + 1) :
    (r.readAll ext.body).Leaves (start, ext) ext.commas outer := by
  match ext with
  | .bare lead name trail =>
      have hname := h.named hpos (.bare lead name trail)
      rw [Ext.body, ← List.append_assoc, readAll_append]
      exact hname.leaves trail
  | .applied lead name gap gap_ne args trail =>
      have hname := h.named hpos (.applied lead name gap gap_ne args trail)
      have hgap := (hname.leads_gap gap gap_ne).arrives
      have htrail := (rests_args args hgap).leads_of_stays At.step_rest_blank trail.blank
      have hclose := htrail.arrives.step_close
      simpa [Ext.body, Ext.commas, Ext.lead, Ext.name] using hclose

private theorem rests_arg (arg : Arg) {r : Reading} {placed : Nat × Ext} {commas : Nat}
    {outer : List Level} (h : r.At Level.IsFresh placed commas outer) :
    (r.readAll arg.chars).At Level.IsRest placed commas outer := by
  match arg with
  | .leaf item => exact (h.leads_leaf item).arrives
  | .nested label ext =>
      have hlabel := (h.leads_labelChars label).arrives
      rw [Arg.chars, readAll_append, readAll_cons]
      exact hlabel.back (leaves_ext ext hlabel.step_open rfl)

private theorem rests_args (args : Args) {r : Reading} {placed : Nat × Ext} {commas : Nat}
    {outer : List Level} (h : r.At Level.IsFresh placed commas outer) :
    (r.readAll args.chars).At Level.IsRest placed (commas + args.commas) outer := by
  match args with
  | .last arg => exact rests_arg arg h
  | .more arg before after rest =>
      have hnext := ((rests_arg arg h).leads_separator before after).arrives
      have hrest := rests_args rest hnext
      simpa [Args.chars, Args.commas, Nat.add_assoc, Nat.add_comm] using hrest

end

/-! ### Carets inside an extension -/

/-- Up to `offset` the reading has gone into the extensions `around`, the outermost of which stands
inside `depth` levels. Once the name of the innermost is complete, the reading knows it. -/
structure Reached (r : Reading) (offset depth : Nat) (around : List (Nat × Ext)) : Prop where
  depth_eq : r.nestingLevel + 1 = depth + around.length
  named : ∀ placed, around.getLast? = some placed → placed.2.nameStop placed.1 ≤ offset →
    ∃ outer, r.Shows placed outer

section Carets

variable {r : Reading} {offset depth : Nat} {placed : Nat × Ext} {outer : List Level}

private theorem Shows.reached (h : r.Shows placed outer) :
    r.Reached offset outer.length [placed] where
  depth_eq := by rw [nestingLevel, h.outer, List.length_singleton]
  named p hp _ := by
    obtain rfl : placed = p := by simpa using hp
    exact ⟨outer, h⟩

private theorem Leads.reached {s : List Char} {P : Level → Prop} {commas : Nat}
    (h : r.Leads s P placed commas outer) :
    (r.readUpTo offset s).Reached offset outer.length [placed] := by
  rw [readUpTo_eq_readAll]
  exact (h.shows _ (takeBytes_isPrefix s _)).reached

private theorem Leads.reached_append {s t : List Char} {P : Level → Prop} {commas : Nat}
    {found : List (Nat × Ext)} (h : r.Leads s P placed commas outer)
    (hnone : offset < r.pos + byteLength s → found = [])
    (hrest : r.pos + byteLength s ≤ offset →
      ((r.readAll s).readUpTo offset t).Reached offset outer.length (placed :: found)) :
    (r.readUpTo offset (s ++ t)).Reached offset outer.length (placed :: found) := by
  by_cases hoffset : offset < r.pos + byteLength s
  · rw [readUpTo_append_of_lt t hoffset, hnone hoffset]
    exact h.reached
  · rw [readUpTo_append_of_le t (by omega)]
    exact hrest (by omega)

/-- What is reached in a nested extension is reached in the one around it. -/
theorem Reached.cons {around : List (Nat × Ext)} (h : r.Reached offset (depth + 1) around)
    (hne : around ≠ []) : r.Reached offset depth (placed :: around) where
  depth_eq := by
    rw [h.depth_eq, List.length_cons]
    omega
  named p hp := by
    rw [List.getLast?_cons_of_ne_nil hne] at hp
    exact h.named p hp

private theorem InName.reached (h : r.InName r.pos outer) {ext : Ext} {start : Nat}
    (hoffset : offset < ext.nameStop start) :
    (r.readUpTo offset (ext.lead.chars ++ ext.name.chars)).Reached offset outer.length
      [(start, ext)] where
  depth_eq := by
    have hkept : (r.readUpTo offset (ext.lead.chars ++ ext.name.chars)).outer = r.outer := by
      rw [readUpTo_eq_readAll]
      apply outer_readAll_of_ne
      intro c hc
      rcases List.mem_append.mp ((takeBytes_isPrefix _ _).mem hc) with hlead | hname
      · obtain ⟨-, -, hopen, hclose, -⟩ := ne_of_isAsciiBlank (ext.lead.blank c hlead)
        exact ⟨hopen, hclose⟩
      · obtain ⟨-, -, -, hopen, hclose, -⟩ := ne_of_isTokenChar (ext.name.plain c hname)
        exact ⟨hopen, hclose⟩
    rw [nestingLevel, hkept, h.outer, List.length_singleton]
  named p hp hle := by
    obtain rfl : (start, ext) = p := by simpa using hp
    exact absurd hle (Nat.not_le.mpr hoffset)

private theorem InName.reached_append (h : r.InName r.pos outer) (ext : Ext) {start : Nat}
    (hpos : r.pos = start + 1) {t : List Char} {found : List (Nat × Ext)}
    (hnone : offset < ext.nameStop start → found = [])
    (hrest : ext.nameStop start ≤ offset → ∀ q : Reading, q.Named (start, ext) outer →
      (q.readUpTo offset t).Reached offset outer.length ((start, ext) :: found)) :
    (r.readUpTo offset ((ext.lead.chars ++ ext.name.chars) ++ t)).Reached offset outer.length
      ((start, ext) :: found) := by
  have hstop : r.pos + byteLength (ext.lead.chars ++ ext.name.chars) = ext.nameStop start := by
    rw [byteLength_append, hpos, Ext.nameStop, Ext.nameStart, Nat.add_assoc _ (byteLength _)]
  by_cases hoffset : offset < ext.nameStop start
  · rw [readUpTo_append_of_lt t (by omega), hnone hoffset]
    exact h.reached hoffset
  · rw [readUpTo_append_of_le t (by omega)]
    exact hrest (by omega) _ (h.named hpos ext)

private theorem Named.reached_trail (h : r.Named placed outer) (trail : Blanks) :
    (r.readUpTo offset trail.chars).Reached offset outer.length [placed] := by
  by_cases htrail : trail.chars = []
  · rw [htrail]
    exact h.shows.reached
  · exact (h.leads_gap trail htrail).reached

end Carets

mutual

private theorem reached_ext (ext : Ext) {r : Reading} {start offset : Nat} {outer : List Level}
    (h : r.InName r.pos outer) (hpos : r.pos = start + 1) (hstart : start < offset)
    (hstop : offset < start + byteLength ext.chars) :
    (r.readUpTo offset ext.body).Reached offset outer.length
      ((ext.extents start).filter (encloses offset)) := by
  have hself : encloses offset (start, ext) = true := by
    simp [encloses, hstart, hstop]
  have hbody : offset < r.pos + byteLength ext.body := by
    have hsize : '{'.utf8Size = 1 := rfl
    rw [Ext.chars, byteLength_cons] at hstop
    omega
  match ext with
  | .bare lead name trail =>
      rw [Ext.extents, List.filter_cons_of_pos hself, List.filter_nil]
      have hsplit : (Ext.bare lead name trail).body =
          ((lead.chars ++ name.chars) ++ trail.chars) ++ ['}'] := by
        simp [Ext.body]
      rw [hsplit] at hbody ⊢
      rw [readUpTo_concat_of_lt hbody]
      apply h.reached_append (.bare lead name trail) hpos
      · exact fun _ => rfl
      · exact fun _ q hq => hq.reached_trail trail
  | .applied lead name gap gap_ne args trail =>
      have hsplit : (Ext.applied lead name gap gap_ne args trail).body =
          ((lead.chars ++ name.chars) ++ (gap.chars ++ (args.chars ++ trail.chars))) ++ ['}'] := by
        simp [Ext.body]
      have hargs : start + 1 + byteLength (lead.chars ++ (name.chars ++ gap.chars)) =
          (Ext.applied lead name gap gap_ne args trail).nameStop start + byteLength gap.chars := by
        simp [Ext.nameStop, Ext.nameStart, Ext.lead, Ext.name, Nat.add_assoc]
      have hnone : ∀ {place}, offset ≤ place ∨ place + byteLength args.chars ≤ offset →
          (args.extents place).filter (encloses offset) = [] :=
        filter_encloses_eq_nil fun _ => args.mem_extents
      rw [Ext.extents, List.filter_cons_of_pos hself, hargs]
      rw [hsplit] at hbody ⊢
      rw [readUpTo_concat_of_lt hbody]
      apply h.reached_append (.applied lead name gap gap_ne args trail) hpos
      · exact fun hlt => hnone (.inl (by omega))
      intro hname q hq
      have hgap := hq.leads_gap gap gap_ne
      have hplace : q.pos + byteLength gap.chars = (q.readAll gap.chars).pos :=
        (readAll_pos q gap.chars).symm
      rw [← hq.pos, hplace]
      apply hgap.reached_append
      · exact fun hlt => hnone (.inl (by omega))
      intro hle
      by_cases hinside : offset < (q.readAll gap.chars).pos + byteLength args.chars
      · rw [readUpTo_append_of_lt _ hinside]
        exact reached_args args hgap.arrives hinside
      · have htrail := (rests_args args hgap.arrives).leads_of_stays At.step_rest_blank trail.blank
        rw [readUpTo_append_of_le _ (by omega), hnone (.inr (by omega))]
        exact htrail.reached

private theorem reached_arg (arg : Arg) {r : Reading} {offset : Nat} {placed : Nat × Ext}
    {commas : Nat} {outer : List Level} (h : r.At Level.IsFresh placed commas outer)
    (hstop : offset < r.pos + byteLength arg.chars) :
    (r.readUpTo offset arg.chars).Reached offset outer.length
      (placed :: (arg.extents r.pos).filter (encloses offset)) := by
  match arg with
  | .leaf item => exact (h.leads_leaf item).reached
  | .nested label ext =>
      have hlabel := h.leads_labelChars label
      have hpos := readAll_pos r (labelChars label)
      have hsize : '{'.utf8Size = 1 := rfl
      rw [Arg.chars, ← Ext.chars, byteLength_append, ← Nat.add_assoc, ← hpos] at hstop
      have hnone : offset ≤ (r.readAll (labelChars label)).pos →
          (ext.extents (r.readAll (labelChars label)).pos).filter (encloses offset) = [] :=
        fun hle => filter_encloses_eq_nil (fun _ => ext.mem_extents) (.inl hle)
      rw [Arg.chars, Arg.extents, ← hpos]
      apply hlabel.reached_append
      · exact fun hlt => hnone (by omega)
      intro hle
      by_cases hopen : offset ≤ (r.readAll (labelChars label)).pos
      · rw [readUpTo_cons, if_neg (by omega), hnone hopen]
        exact hlabel.arrives.shows.reached
      · rw [readUpTo_cons, if_pos (by omega)]
        apply (reached_ext ext hlabel.arrives.step_open rfl (by omega) hstop).cons
        have hself := ext.mem_extents_self (r.readAll (labelChars label)).pos
        apply List.ne_nil_of_mem (List.mem_filter.mpr ⟨hself, ?_⟩)
        simp only [encloses, Bool.and_eq_true, decide_eq_true_eq]
        omega

private theorem reached_args (args : Args) {r : Reading} {offset : Nat} {placed : Nat × Ext}
    {commas : Nat} {outer : List Level} (h : r.At Level.IsFresh placed commas outer)
    (hstop : offset < r.pos + byteLength args.chars) :
    (r.readUpTo offset args.chars).Reached offset outer.length
      (placed :: (args.extents r.pos).filter (encloses offset)) := by
  match args with
  | .last arg => exact reached_arg arg h hstop
  | .more arg before after rest =>
      have hsplit : (Args.more arg before after rest).chars =
          arg.chars ++ ((before.chars ++ ',' :: after.chars) ++ rest.chars) := by
        simp [Args.chars]
      have harg := rests_arg arg h
      have hnext := harg.leads_separator before after
      have hpos := readAll_pos r arg.chars
      have hpos' := readAll_pos (r.readAll arg.chars) (before.chars ++ ',' :: after.chars)
      rw [hsplit, byteLength_append, byteLength_append] at hstop
      rw [hsplit, Args.extents, List.filter_append, byteLength_append, ← Nat.add_assoc, ← hpos,
        ← hpos']
      have hnone : offset ≤ ((r.readAll arg.chars).readAll
          (before.chars ++ ',' :: after.chars)).pos → (rest.extents ((r.readAll arg.chars).readAll
          (before.chars ++ ',' :: after.chars)).pos).filter (encloses offset) = [] :=
        fun hle => filter_encloses_eq_nil (fun _ => rest.mem_extents) (.inl hle)
      by_cases hinside : offset < r.pos + byteLength arg.chars
      · rw [readUpTo_append_of_lt _ hinside, hnone (by omega), List.append_nil]
        exact reached_arg arg h hinside
      · rw [readUpTo_append_of_le _ (by omega),
          filter_encloses_eq_nil (fun _ => arg.mem_extents) (.inr (by omega)), List.nil_append]
        apply hnext.reached_append
        · exact fun hlt => hnone (by omega)
        · exact fun _ => reached_args rest hnext.arrives (by omega)

end

theorem Shows.extensionName {r : Reading} {placed : Nat × Ext} {outer : List Level}
    (h : r.Shows placed outer) {ext : Ext} (hplaced : placed ∈ ext.extents 0)
    (hsize : byteLength ext.chars < 4294967296) :
    r.extensionNameSpan.map (·.read ext.chars) = some placed.2.name.chars := by
  obtain ⟨before, after, hchars, hstart⟩ := ext.mem_extents hplaced
  obtain ⟨rest, hrest⟩ := placed.2.exists_chars_eq
  have htext : ext.chars = (before ++ '{' :: placed.2.lead.chars) ++
      (placed.2.name.chars ++ (rest ++ after)) := by
    rw [hchars, hrest]
    simp
  have hopen : '{'.utf8Size = 1 := rfl
  have hname : byteLength (before ++ '{' :: placed.2.lead.chars) = r.level.nameStart := by
    rw [h.nameStart, Ext.nameStart, hstart, byteLength_append, byteLength_cons, hopen]
    omega
  have hstop : byteLength (before ++ '{' :: placed.2.lead.chars) +
      byteLength placed.2.name.chars = r.level.nameStop.getD r.pos := by
    rw [h.nameStop, Ext.nameStop, hname, h.nameStart]
  have hne : r.level.nameStart ≠ 0 := by
    rw [h.nameStart, Ext.nameStart]
    omega
  have hspan : r.extensionNameSpan =
      some (.ofOffsets r.level.nameStart (r.level.nameStop.getD r.pos)) := by
    simp [extensionNameSpan, h.literal, hne]
  rw [hspan, Option.map_some, ← hname, ← hstop, htext]
  rw [htext] at hsize
  rw [Span.read_ofOffsets _ _ _ hsize]

/-- Reading a well-formed extension to its end leads outside, with its own name and the number of
its commas. A caret inside of it is as deep as there are extensions around it, and once the name of
the innermost of them is complete, that is the name in force. -/
theorem upTo_wellFormed (ext : Ext) (offset : Nat) (hsize : byteLength ext.chars < 4294967296) :
    let r := upTo ext.chars offset
    let name := r.extensionNameSpan.map (·.read ext.chars)
    (byteLength ext.chars ≤ offset →
      r.level.phase = .outside ∧ r.nestingLevel = 0 ∧ r.literal = false ∧
        name = some ext.name.chars ∧ r.level.commas = ext.commas) ∧
    (0 < offset → offset < byteLength ext.chars →
      r.nestingLevel + 1 = (ext.around offset).length ∧
        ∀ start inner, (ext.around offset).getLast? = some (start, inner) →
          inner.nameStop start ≤ offset → name = some inner.name.chars) := by
  intro r name
  have hopen : (({} : Reading).step '{').InName (({} : Reading).step '{').pos [] :=
    ⟨rfl, rfl, rfl⟩
  have hread : r = ({} : Reading).readUpTo offset ext.chars := upTo_eq_readUpTo ext.chars offset
  constructor
  · intro hend
    have hall : r = (({} : Reading).step '{').readAll ext.body := by
      have happend := readUpTo_append_of_le (r := {}) [] (by simpa using hend)
      rw [List.append_nil] at happend
      rw [hread, happend]
      rfl
    have hleaves : r.Leaves (0, ext) ext.commas [] := by
      rw [hall]
      exact leaves_ext ext hopen rfl
    exact ⟨hleaves.place, by rw [nestingLevel, hleaves.outer]; rfl, hleaves.literal,
      hleaves.shows.extensionName (ext.mem_extents_self 0) hsize, hleaves.commas⟩
  · intro hpos hlt
    have hstep : r = (({} : Reading).step '{').readUpTo offset ext.body := by
      rw [hread, Ext.chars, readUpTo_cons, if_pos]
      exact hpos
    have hreached : r.Reached offset 0 (ext.around offset) := by
      rw [hstep]
      exact reached_ext ext hopen rfl hpos (by omega)
    refine ⟨by simpa using hreached.depth_eq, ?_⟩
    intro start inner hlast hstop
    obtain ⟨outer, hshows⟩ := hreached.named (start, inner) hlast hstop
    have hmem := List.mem_of_getLast? hlast
    exact hshows.extensionName (List.mem_filter.mp hmem).1 hsize

section Example

private def letterToken (c : Char) (h : isTokenChar c = true := by decide) : Token :=
  ⟨[c], by simp, by simpa using h⟩

private def noBlanks : Blanks := ⟨[], by simp⟩

private def oneBlank : Blanks := ⟨[' '], List.all_eq_true.mp (by decide)⟩

/-- The extension `{A B={ C},'}'}`. -/
private def trickyExt : Ext :=
  .applied noBlanks (letterToken 'A') oneBlank (by decide)
    (.more (.nested (some ⟨letterToken 'B', noBlanks, noBlanks⟩)
        (.bare oneBlank (letterToken 'C') noBlanks)) noBlanks noBlanks
      (.last (.leaf (.quoted none ['}'] (by decide))))) noBlanks

theorem upTo_wellFormed_tricky :
    (upTo trickyExt.chars 14).level.commas = 1 ∧ (upTo trickyExt.chars 8).nestingLevel + 1 = 2 ∧
      (upTo trickyExt.chars 8).extensionNameSpan.map (·.read trickyExt.chars) = some ['C'] := by
  have hend := (upTo_wellFormed trickyExt 14 (by decide)).1 (by decide)
  have hinside := (upTo_wellFormed trickyExt 8 (by decide)).2 (by decide) (by decide)
  exact ⟨hend.2.2.2.2, hinside.1, hinside.2 5 _ rfl (by decide)⟩

end Example

end Reading

end XamlAssist.Extension
