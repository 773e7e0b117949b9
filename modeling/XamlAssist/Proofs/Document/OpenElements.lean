import XamlAssist.Proofs.Document.TagReading

/-!
# The open tags of a well-formed document

Reading keeps the stack of open tags by local rules: an empty element, a declaration or an
instruction takes itself away when it ends, a closing tag takes itself and the tag below it. In a
well-formed document this stack holds the elements around the caret, wherever the caret stands
between two items or inside a text.
-/

namespace XamlAssist.Document

open Text

namespace Reading

/-- The reading is between tags, with the given tags open. -/
structure Between (r : Reading) (opened : List Nat) : Prop where
  content : r.phase.isContent = true
  opened_eq : r.openTags = opened

variable {r : Reading} {opened : List Nat}

/-! ### Texts, comments and character data -/

theorem Between.text (h : r.Between opened) {s : List Char} (hs : '<' ∉ s) :
    (r.readAll s).Between opened := by
  induction s generalizing r with
  | nil => exact h
  | cons c s ih =>
      have hc : c ≠ '<' := fun heq => hs (heq ▸ List.mem_cons_self)
      have hstep : (r.step c).Between opened := by
        obtain ⟨pos, phase, tags⟩ := r
        obtain ⟨hcontent, hopened⟩ := h
        cases phase with
        | content last => exact ⟨by simp [step, react, hc, Phase.isContent], by
            simpa [step, react, hc] using hopened⟩
        | comment tag body => simp [Phase.isContent] at hcontent
        | cdata tag body => simp [Phase.isContent] at hcontent
        | inTag tag spot => simp [Phase.isContent] at hcontent
      exact ih hstep fun hmem => hs (List.mem_cons_of_mem c hmem)

section Verbatim

variable {inside : List Char → Phase} {ends : List Char → Bool} {tag : Tag}

theorem readAll_before_end
    (hstep : ∀ pos body c, step ⟨pos, inside body, opened⟩ c =
      ⟨pos + c.utf8Size, if ends (c :: body) then .content (some tag) else inside (c :: body),
        opened⟩)
    (s body : List Char) (pos : Nat)
    (hfree : ∀ t u, s = t ++ u → t ≠ [] → ends (t.reverse ++ body) = false) :
    readAll ⟨pos, inside body, opened⟩ s =
      ⟨pos + byteLength s, inside (s.reverse ++ body), opened⟩ := by
  induction s generalizing pos body with
  | nil => rfl
  | cons c s ih =>
      have hc : ends (c :: body) = false := hfree [c] s rfl (by simp)
      rw [readAll_cons, hstep, if_neg (by simp [hc]), ih, byteLength_cons, Nat.add_assoc,
        List.reverse_cons, List.append_assoc, List.singleton_append]
      intro t u htu ht
      have hlonger := hfree (c :: t) u (by rw [htu]; rfl) (by simp)
      simpa using hlonger

theorem readAll_before_terminator {terminator body t u : List Char}
    (hstep : ∀ pos body c, step ⟨pos, inside body, opened⟩ c =
      ⟨pos + c.utf8Size, if ends (c :: body) then .content (some tag) else inside (c :: body),
        opened⟩)
    (hends : ∀ s, ends s = true ↔ terminator.reverse <+: s) (hfirst : EndsFirst terminator body)
    (hsplit : body ++ terminator = t ++ u) (hu : u ≠ []) (pos : Nat) :
    readAll ⟨pos, inside [], opened⟩ t = ⟨pos + byteLength t, inside t.reverse, opened⟩ := by
  have hbefore : ∀ v w, t = v ++ w → v ≠ [] → ends (v.reverse ++ []) = false := by
    intro v w ht _
    rw [List.append_nil, Bool.eq_false_iff]
    intro hend
    obtain ⟨front, hfront⟩ := List.reverse_prefix.mp ((hends _).mp hend)
    have hnil := hfirst front (w ++ u) (by rw [hsplit, ht, ← hfront, List.append_assoc])
    exact hu (List.append_eq_nil_iff.mp hnil).2
  rw [readAll_before_end hstep t [] pos hbefore, List.append_nil]

/-- A construct that ends where `terminator` has been read is left behind the first occurrence. -/
private theorem readAll_to_end {terminator body : List Char} (hne : terminator ≠ [])
    (hstep : ∀ pos body c, step ⟨pos, inside body, opened⟩ c =
      ⟨pos + c.utf8Size, if ends (c :: body) then .content (some tag) else inside (c :: body),
        opened⟩)
    (hends : ∀ s, ends s = true ↔ terminator.reverse <+: s) (hfirst : EndsFirst terminator body)
    (pos : Nat) :
    (readAll ⟨pos, inside [], opened⟩ (body ++ terminator)).Between opened := by
  obtain ⟨init, last, hsplit⟩ := List.eq_nil_or_concat (body ++ terminator) |>.resolve_left
    (by simp [hne])
  rw [List.concat_eq_append] at hsplit
  have hlast : ends (last :: init.reverse) = true := by
    rw [hends, ← List.reverse_concat, ← hsplit, List.reverse_prefix]
    exact List.suffix_append body terminator
  rw [hsplit, readAll_append,
    readAll_before_terminator hstep hends hfirst hsplit (List.cons_ne_nil last []), readAll_cons,
    hstep, if_pos hlast]
  exact ⟨rfl, rfl⟩

end Verbatim

theorem endsComment_iff (s : List Char) :
    endsComment s = true ↔ (['-', '-', '>'] : List Char).reverse <+: s := by
  unfold endsComment
  split
  · simp
  · next h =>
      simp only [Bool.false_eq_true, false_iff]
      rintro ⟨rest, rfl⟩
      exact h rest rfl

theorem endsCdata_iff (s : List Char) :
    endsCdata s = true ↔ ([']', ']', '>'] : List Char).reverse <+: s := by
  unfold endsCdata
  split
  · simp
  · next h =>
      simp only [Bool.false_eq_true, false_iff]
      rintro ⟨rest, rfl⟩
      exact h rest rfl

theorem Between.openComment (h : r.Between opened) :
    r.readAll ['<', '!', '-', '-'] =
      ⟨r.pos + 4, .comment { start := r.pos, nameStart := r.pos + 1, seen := commentOpener } [],
        opened⟩ := by
  rw [readAll_cons, step_open h.content, h.opened_eq]
  rfl

theorem Between.comment (h : r.Between opened) {body : List Char}
    (hbody : EndsFirst ['-', '-', '>'] body) :
    (r.readAll (['<', '!', '-', '-'] ++ (body ++ ['-', '-', '>']))).Between opened := by
  rw [readAll_append, h.openComment]
  exact readAll_to_end (by simp) (fun _ _ _ => rfl) endsComment_iff hbody (r.pos + 4)

theorem Between.openCdata (h : r.Between opened) :
    r.readAll ['<', '!', '[', 'C', 'D', 'A', 'T', 'A', '['] =
      ⟨r.pos + 9, .cdata { start := r.pos, nameStart := r.pos + 1, seen := cdataOpener } [],
        opened⟩ := by
  rw [readAll_cons, step_open h.content, h.opened_eq]
  rfl

theorem Between.cdata (h : r.Between opened) {body : List Char}
    (hbody : EndsFirst [']', ']', '>'] body) :
    (r.readAll (['<', '!', '[', 'C', 'D', 'A', 'T', 'A', '['] ++
      (body ++ [']', ']', '>']))).Between opened := by
  rw [readAll_append, h.openCdata]
  exact readAll_to_end (by simp) (fun _ _ _ => rfl) endsCdata_iff hbody (r.pos + 9)

/-! ### Tags -/

private theorem getLast?_append_ne {s t : List Char} {c : Char} (hs : s.getLast? ≠ some c)
    (ht : t.getLast? ≠ some c) : (s ++ t).getLast? ≠ some c := by
  rw [List.getLast?_append]
  cases hlast : t.getLast? with
  | none => simpa using hs
  | some d => simpa [hlast] using ht

private theorem getLast?_ne_of_not_mem {s : List Char} {c : Char} (h : c ∉ s) :
    s.getLast? ≠ some c := fun hlast => h (List.mem_of_getLast? hlast)

private theorem name_getLast?_ne_slash (name : Name) : name.chars.getLast? ≠ some '/' :=
  getLast?_ne_of_not_mem fun h => (ne_of_isNameChar (Name.isNameChar_of_mem h)).2.2.2.1 rfl

private theorem blanks_getLast?_ne_slash (bs : Blanks) : bs.chars.getLast? ≠ some '/' :=
  getLast?_ne_of_not_mem fun h => (ne_of_isMarkupBlank (bs.blank '/' h)).2.2.1 rfl

private theorem attributes_getLast?_ne_slash (attrs : List Attribute) :
    (attrs.flatMap Attribute.chars).getLast? ≠ some '/' := by
  induction attrs with
  | nil => simp
  | cons attr attrs ih =>
      have hquote : attr.quote ≠ '/' := by
        rcases attr.quote_ok with h | h <;> rw [h] <;> decide
      have hattr : attr.chars.getLast? = some attr.quote := by
        simp [Attribute.chars, Attribute.assigned, List.getLast?_cons, List.getLast?_append]
      rw [List.flatMap_cons]
      apply getLast?_append_ne _ ih
      rw [hattr]
      simpa using hquote

/-- A `>` right behind a body is not taken for the end of an empty element. -/
private theorem body_getLast?_ne_slash (body : TagBody) : body.chars.getLast? ≠ some '/' :=
  getLast?_append_ne (name_getLast?_ne_slash body.name)
    (getLast?_append_ne (attributes_getLast?_ne_slash body.attributes)
      (blanks_getLast?_ne_slash body.trailing))

theorem Between.startTag (h : r.Between opened) (body : TagBody) :
    (r.readAll body.startTag).Between (r.pos :: opened) := by
  have htag := inTag_of_body h.content body [] (.inl rfl)
  obtain ⟨hcontent, hopened⟩ := (htag.mono IsRest.isUnquoted).close
  have hslash := body_getLast?_ne_slash body
  have hfirst := body.name.first_plain.2
  have hhead : body.chars.head? = some body.name.first := rfl
  have hleaving : leaving false (body.chars.reverse) = 0 := by
    simp [leaving, hslash, hhead, hfirst]
  rw [List.nil_append] at hcontent hopened
  rw [hleaving, h.opened_eq] at hopened
  rw [TagBody.startTag, readAll_cons, readAll_append]
  exact ⟨hcontent, hopened⟩

theorem Between.emptyElement (h : r.Between opened) (body : TagBody) :
    (r.readAll ('<' :: (body.chars ++ ['/', '>']))).Between opened := by
  have htag := (inTag_of_body h.content body [] (.inl rfl)).slash
  obtain ⟨hcontent, hopened⟩ := (htag.mono IsRest.isUnquoted).close
  have hleaving : leaving false ('/' :: body.chars.reverse) = 1 := by simp [leaving]
  rw [List.nil_append] at hcontent hopened
  rw [hleaving, h.opened_eq] at hopened
  rw [readAll_cons, readAll_append]
  exact ⟨hcontent, hopened⟩

theorem Between.instruction (h : r.Between opened) (body : TagBody) :
    (r.readAll ('<' :: '?' :: (body.chars ++ ['?', '>']))).Between opened := by
  have htag := (inTag_of_body h.content body ['?'] (.inr rfl)).question
  obtain ⟨hcontent, hopened⟩ := htag.close
  have hleaving : leaving false ('?' :: (['?'] ++ body.chars).reverse) = 1 := by
    simp [leaving, List.getLast?_cons, List.getLast?_append]
  rw [hleaving, h.opened_eq] at hopened
  rw [readAll_cons, ← List.cons_append, readAll_append]
  exact ⟨hcontent, hopened⟩

private theorem word_plain {words : List Word} {c : Char} (hc : c ∈ words.flatMap Word.chars) :
    isDeclarationChar c = true := by
  obtain ⟨word, -, hmem⟩ := List.mem_flatMap.mp hc
  rcases List.mem_append.mp hmem with hblank | hletter
  · obtain ⟨hlt, hgt, hslash, heq, -⟩ := ne_of_isMarkupBlank (word.before.blank c hblank)
    simp [isDeclarationChar, hlt, hgt, hslash, heq]
  · exact word.plain c hletter

private theorem declaration_opener_free (decl : Declaration) :
    ∀ t u, '!' :: decl.name.chars = t ++ u → t ≠ [] →
      t.reverse ≠ commentOpener ∧ t.reverse ≠ cdataOpener := by
  intro t u hs _
  constructor
  · intro h
    have ht : t = ['!', '-', '-'] := by rw [← List.reverse_reverse t, h]; rfl
    rw [ht] at hs
    exact decl.not_comment ⟨u, (List.cons.inj hs).2.symm⟩
  · intro h
    have ht : t = ['!', '[', 'C', 'D', 'A', 'T', 'A', '['] := by
      rw [← List.reverse_reverse t, h]; rfl
    rw [ht] at hs
    exact decl.not_cdata ⟨u, (List.cons.inj hs).2.symm⟩

theorem inTag_of_declaration (h : r.Between opened) (decl : Declaration) :
    ∃ seen, ((r.step '<').readAll
        ('!' :: (decl.name.chars ++ decl.words.flatMap Word.chars))).InTag IsUnquoted
      (r.pos :: opened) false seen ∧ seen.getLast? = some '!' := by
  have hname := inTag_of_nameChars h.content (s := '!' :: decl.name.chars)
    (by
      intro c hc
      rcases List.mem_cons.mp hc with rfl | hc
      · rfl
      · exact Name.isNameChar_of_mem hc)
    (by simp) (declaration_opener_free decl)
  rw [h.opened_eq] at hname
  cases hwords : decl.words with
  | nil =>
      refine ⟨('!' :: decl.name.chars).reverse, ?_, by simp⟩
      simpa using hname.mono IsRest.isUnquoted
  | cons word words =>
      obtain ⟨tag, hread, hclosing, hseen, hstart⟩ := hname.readAll_blanks word.before_ne
      have hgap : (((r.step '<').readAll ('!' :: decl.name.chars)).readAll
          word.before.chars).InTag IsLoose (r.pos :: opened) false
          (word.before.chars.reverse ++ ('!' :: decl.name.chars).reverse) := by
        rw [hread]
        exact ⟨rfl, tag, .gap, rfl, .gap, hclosing, hseen, Nat.lt_add_right _ hstart⟩
      have hrest := hgap.declarationChars (word.letters ++ words.flatMap Word.chars) (by
        intro c hc
        rcases List.mem_append.mp hc with hc | hc
        · exact word.plain c hc
        · exact word_plain hc)
      have hall := hrest.mono IsLoose.isUnquoted
      refine ⟨_, by simpa [Word.chars] using hall, ?_⟩
      simp [List.getLast?_append, List.getLast?_cons]

theorem Between.declaration (h : r.Between opened) (decl : Declaration) :
    (r.readAll decl.chars).Between opened := by
  obtain ⟨seen, htag, hlast⟩ := inTag_of_declaration h decl
  obtain ⟨hcontent, hopened⟩ := htag.close
  have hleaving : leaving false seen = 1 := by simp [leaving, hlast]
  rw [hleaving] at hopened
  rw [Declaration.chars, readAll_cons, ← List.append_assoc, ← List.cons_append, readAll_append]
  exact ⟨hcontent, hopened⟩

theorem Between.leaf (h : r.Between opened) (item : Leaf) :
    (r.readAll item.chars).Between opened := by
  cases item with
  | text chars plain => exact h.text plain
  | comment body ends => exact h.comment ends
  | cdata body ends => exact h.cdata ends
  | instruction body => exact h.instruction body
  | declaration decl => exact h.declaration decl
  | emptyElement body => exact h.emptyElement body

theorem Between.inClosingTag {start : Nat} (h : r.Between (start :: opened)) (body : TagBody)
    (blanks : Blanks) :
    ∃ seen, (r.readAll ('<' :: '/' :: (body.name.chars ++ blanks.chars))).InTag IsRest
      (r.pos :: start :: opened) true seen := by
  have hslash : (r.step '<').step '/' =
      ⟨r.pos + 2, .inTag { start := r.pos, nameStart := r.pos + 2, closing := true, seen := ['/'] }
        .name, r.pos :: start :: opened⟩ := by
    rw [step_open h.content, h.opened_eq]
    simp [step, react, readSpot, readName, moveTo, commentOpener, cdataOpener]
    rfl
  have hfree := opener_free body.name.chars ['/'] (by simp)
  have hname : ((r.step '<').step '/' |>.readAll body.name.chars).InTag IsRest
      (r.pos :: start :: opened) true (body.name.chars.reverse ++ ['/']) := by
    rw [hslash, readAll_tagName body.name.chars (fun c => Name.isNameChar_of_mem) _ _ _ hfree]
    refine ⟨rfl, _, _, rfl, .name, rfl, rfl, ?_⟩
    have hfirst := body.name.first.utf8Size_pos
    simp only [Tag.extend, Name.chars, byteLength_cons]
    omega
  rw [readAll_cons, readAll_cons, readAll_append]
  exact ⟨_, hname.blanks blanks⟩

/-- A closing tag takes away itself and the innermost open tag. -/
theorem Between.closingTag {start : Nat} (h : r.Between (start :: opened)) (body : TagBody)
    (blanks : Blanks) : (r.readAll (body.closingTag blanks)).Between opened := by
  obtain ⟨seen, htag⟩ := h.inClosingTag body blanks
  obtain ⟨hcontent, hopened⟩ := (htag.mono IsRest.isUnquoted).close
  rw [TagBody.closingTag, ← List.append_assoc, ← List.cons_append, ← List.cons_append,
    readAll_append]
  exact ⟨hcontent, hopened⟩

/-! ### Sequences of items -/

/-- A whole well-formed document leaves the open tags as they were. -/
theorem Between.markup (h : r.Between opened) (markup : Markup) :
    (r.readAll markup.chars).Between opened := by
  induction markup generalizing r opened with
  | done => exact h
  | leaf item rest ih =>
      rw [Markup.chars, readAll_append]
      exact ih (h.leaf item)
  | element body content blanks rest ihContent ihRest =>
      rw [Markup.chars, readAll_append, readAll_append, readAll_append]
      exact ihRest ((ihContent (h.startTag body)).closingTag body blanks)

private theorem Between.readUpTo_text (h : r.Between opened) {s tail : List Char}
    (hs : '<' ∉ s) {offset : Nat} (hoffset : offset ≤ r.pos + byteLength s) :
    (r.readUpTo offset (s ++ tail)).Between opened := by
  induction s generalizing r with
  | nil =>
      cases tail with
      | nil => exact h
      | cons c tail =>
          have hc := c.utf8Size_pos
          rw [byteLength_nil] at hoffset
          rw [List.nil_append, readUpTo_cons, if_neg (by omega)]
          exact h
  | cons c s ih =>
      rw [byteLength_cons] at hoffset
      rw [List.cons_append, readUpTo_cons]
      split
      · have hc : '<' ∉ [c] := fun hmem => hs (by
          rw [List.mem_singleton.mp hmem]; exact List.mem_cons_self)
        refine ih (h.text hc) (fun hmem => hs (List.mem_cons_of_mem c hmem)) ?_
        rw [step_pos]
        omega
      · exact h

private theorem start_le_of_stands {start offset : Nat} {markup : Markup} {elements : List Nat}
    (h : markup.Stands start offset elements) : start ≤ offset := by
  induction h with
  | first => exact Nat.le_refl _
  | inText hstart _ => exact hstart
  | behindLeaf _ ih => exact Nat.le_of_add_right_le ih
  | inElement _ ih => exact Nat.le_of_add_right_le ih
  | behindElement _ ih => exact Nat.le_of_add_right_le ih

/-- What holds at every place between items, for markup with any text behind it. -/
theorem Between.readUpTo {start offset : Nat} {markup : Markup} {elements : List Nat}
    (hstands : markup.Stands start offset elements) (h : r.Between opened) (hpos : r.pos = start)
    (tail : List Char) :
    (r.readUpTo offset (markup.chars ++ tail)).Between (elements.reverse ++ opened) := by
  induction hstands generalizing r opened tail with
  | first start markup =>
      rw [← hpos, readUpTo_pos]
      exact h
  | @inText start offset chars plain rest hstart hstop =>
      rw [Markup.chars, List.append_assoc]
      exact h.readUpTo_text plain (hpos ▸ hstop)
  | @behindLeaf start offset item rest elements hrest ih =>
      have hle := start_le_of_stands hrest
      rw [Markup.chars, List.append_assoc, readUpTo_append item.chars _ (hpos ▸ hle)]
      exact ih (h.leaf item) (by rw [readAll_pos, hpos]) tail
  | @inElement start offset body content rest blanks elements hrest ih =>
      have hle := start_le_of_stands hrest
      have helements : (start :: elements).reverse ++ opened =
          elements.reverse ++ r.pos :: opened := by simp [hpos]
      rw [Markup.chars, List.append_assoc, readUpTo_append body.startTag _ (hpos ▸ hle),
        List.append_assoc, helements]
      exact ih (h.startTag body) (by rw [readAll_pos, hpos]) _
  | @behindElement start offset body content rest blanks elements hrest ih =>
      have hle := start_le_of_stands hrest
      have helement : (r.readAll
          (body.startTag ++ (content.chars ++ body.closingTag blanks))).Between opened := by
        rw [readAll_append, readAll_append]
        exact ((h.startTag body).markup content).closingTag body blanks
      have hsplit : (Markup.element body content blanks rest).chars ++ tail =
          (body.startTag ++ (content.chars ++ body.closingTag blanks)) ++ (rest.chars ++ tail) := by
        simp only [Markup.chars, List.append_assoc]
      rw [hsplit, readUpTo_append _ _ (hpos ▸ hle)]
      exact ih helement (by rw [readAll_pos, hpos]) tail

/-- Wherever a caret stands between two items of a well-formed document or inside a text of it,
reading up to it ends between tags, and the open tags are exactly the elements around it. -/
theorem openTags_of_wellFormed (markup : Markup) (offset : Nat) (elements : List Nat)
    (h : markup.Stands 0 offset elements) :
    (upTo markup.chars offset).phase.isContent = true ∧
      (upTo markup.chars offset).openTags.reverse = elements := by
  have hstart : ({} : Reading).Between [] := ⟨rfl, rfl⟩
  obtain ⟨hcontent, hopened⟩ := hstart.readUpTo h rfl []
  rw [List.append_nil] at hcontent hopened
  rw [upTo_eq_readUpTo, hopened]
  exact ⟨hcontent, by simp⟩

section Example

private def letterName (c : Char)
    (h : isNameChar c = true ∧ c ≠ '!' ∧ c ≠ '?' := by decide) : Name :=
  ⟨c, [], h, by simp⟩

private def trickyAttribute : Attribute where
  before := ⟨[' '], List.all_eq_true.mp (by decide)⟩
  before_ne := by decide
  name := letterName 'b'
  afterName := ⟨[], by simp⟩
  beforeValue := ⟨[], by simp⟩
  quote := '"'
  quote_ok := .inl rfl
  value := ['<', '/', '>']
  value_ok := by decide

/-- The document `<a b="</>"><c/>é</a>`. -/
private def trickyMarkup : Markup :=
  .element ⟨letterName 'a', [trickyAttribute], ⟨[], by simp⟩⟩
    (.leaf (.emptyElement ⟨letterName 'c', [], ⟨[], by simp⟩⟩)
      (.leaf (.text ['é'] (by decide)) .done))
    ⟨[], by simp⟩ .done

/-- Inside the `é` the element `a` is open, the element `c` is not. -/
theorem openTags_of_wellFormed_tricky :
    trickyMarkup.Stands 0 16 [0] ∧
      (upTo trickyMarkup.chars 16).phase.isContent = true ∧
      (upTo trickyMarkup.chars 16).openTags.reverse = [0] := by
  have h : trickyMarkup.Stands 0 16 [0] :=
    .inElement (.behindLeaf (.inText (by decide) (by decide)))
  exact ⟨h, openTags_of_wellFormed trickyMarkup 16 [0] h⟩

end Example

end Reading

end XamlAssist.Document
