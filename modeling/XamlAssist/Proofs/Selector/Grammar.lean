import XamlAssist.Selector.Statement

/-!
# The grammar of selectors

A selector is a chain: a head such as `Button`, `.warning` or `:not(...)`, followed by links, which
narrow the head or lead on to another one. Chains also stand inside the functions `:is(...)` and
`:not(...)`, so the grammar is recursive. Which words may name a function is left open: a reader
that takes names by their characters finds only those that are class names.
-/

namespace XamlAssist.Selector

open Text

def IsBlankRun (s : List Char) : Prop := ∀ c ∈ s, isBlank c = true

/-- The names of the functions. -/
def functionNames : List (List Char) :=
  [['i', 's'], ['n', 'o', 't'], ['n', 't', 'h', '-', 'c', 'h', 'i', 'l', 'd'],
    ['n', 't', 'h', '-', 'l', 'a', 's', 't', '-', 'c', 'h', 'i', 'l', 'd']]

/-- The argument of a counting function: `odd`, `even`, or some digits, `n`, signs and blanks. -/
def IsCountText (s : List Char) : Prop :=
  ')' ∉ s ∧
    (trim s = ['o', 'd', 'd'] ∨ trim s = ['e', 'v', 'e', 'n'] ∨
      (trim s ≠ [] ∧
        ∀ c ∈ trim s, c.isDigit = true ∨ c = 'n' ∨ c = '+' ∨ c = '-' ∨ isBlank c = true))

/-- The names of the counting functions. -/
inductive IsCountName : List Char → Prop
  | nthChild : IsCountName ['n', 't', 'h', '-', 'c', 'h', 'i', 'l', 'd']
  | nthLastChild :
      IsCountName ['n', 't', 'h', '-', 'l', 'a', 's', 't', '-', 'c', 'h', 'i', 'l', 'd']

private theorem IsCountName.mem_functionNames {name : List Char} (h : IsCountName name) :
    name ∈ functionNames := by
  cases h <;> simp [functionNames]

variable [IdentifierTables]

def IsIdentifier : List Char → Prop
  | [] => False
  | c :: cs => isIdentifierStart c = true ∧ ∀ d ∈ cs, isIdentifierContinue d = true

def IsClassName (s : List Char) : Prop := s ≠ [] ∧ ∀ c ∈ s, isStyleClassChar c = true

/-- An identifier, with a namespace and a bar before it if it has one. -/
inductive IsTypeName : List Char → Prop
  | plain {s : List Char} : IsIdentifier s → IsTypeName s
  | qualified {s t : List Char} : IsIdentifier s → IsIdentifier t → IsTypeName (s ++ '|' :: t)

/-- A property, or an attached property behind its type, with or without parentheses. -/
inductive IsPropertyPath : List Char → Prop
  | own {p : List Char} : IsIdentifier p → IsPropertyPath p
  | attached {t p : List Char} : IsTypeName t → IsIdentifier p → IsPropertyPath (t ++ '.' :: p)
  | enclosed {t p : List Char} :
      IsTypeName t → IsIdentifier p → IsPropertyPath ('(' :: (t ++ '.' :: (p ++ [')'])))

/-- What stands between the brackets of a condition on a property. -/
inductive IsPredicate : List Char → Prop
  | mk {before path after value : List Char} :
      IsBlankRun before → IsPropertyPath path → IsBlankRun after → ']' ∉ value →
        IsPredicate (before ++ (path ++ (after ++ '=' :: value)))

section Chains

variable (named : List Char → Prop)

mutual

/-- What may follow a colon: a pseudo-class or a function with its arguments. -/
inductive IsPseudo : List Char → Prop
  | className {s : List Char} : IsClassName s → IsPseudo s
  | count {name args : List Char} :
      IsCountName name → named name → IsCountText args → IsPseudo (name ++ '(' :: (args ++ [')']))
  | is {name links blanks : List Char} :
      named ['i', 's'] → IsTypeName name → IsLinks links → IsBlankRun blanks →
        IsPseudo ('i' :: 's' :: '(' :: (name ++ (links ++ (blanks ++ [')']))))
  | not {chain blanks : List Char} :
      named ['n', 'o', 't'] → IsChain chain → IsBlankRun blanks →
        IsPseudo ('n' :: 'o' :: 't' :: '(' :: (chain ++ (blanks ++ [')'])))

/-- What a segment begins with. -/
inductive IsHead : List Char → Prop
  | typeName {s : List Char} : IsTypeName s → IsHead s
  | nesting : IsHead ['^']
  | pseudo {s : List Char} : IsPseudo s → IsHead (':' :: s)
  | styleClass {s : List Char} : IsClassName s → IsHead ('.' :: s)
  | elementName {s : List Char} : IsIdentifier s → IsHead ('#' :: s)

/-- What may follow a head or a link: a condition right behind it, or a combinator with another
head. -/
inductive IsLink : List Char → Prop
  | pseudo {s : List Char} : IsPseudo s → IsLink (':' :: s)
  | styleClass {s : List Char} : IsClassName s → IsLink ('.' :: s)
  | elementName {s : List Char} : IsIdentifier s → IsLink ('#' :: s)
  | predicate {s : List Char} : IsPredicate s → IsLink ('[' :: (s ++ [']']))
  | child {before after head : List Char} :
      IsBlankRun before → IsBlankRun after → IsHead head → IsLink (before ++ '>' :: (after ++ head))
  | template {before after head : List Char} :
      IsBlankRun before → IsBlankRun after → IsHead head →
        IsLink (before ++ (templateText ++ (after ++ head)))
  | descendant {blanks head : List Char} :
      IsBlankRun blanks → blanks ≠ [] → IsHead head → IsLink (blanks ++ head)
  | alternative {before after head : List Char} :
      IsBlankRun before → IsBlankRun after → IsHead head → IsLink (before ++ ',' :: (after ++ head))

inductive IsLinks : List Char → Prop
  | nil : IsLinks []
  | cons {s t : List Char} : IsLink s → IsLinks t → IsLinks (s ++ t)

inductive IsChain : List Char → Prop
  | mk {blanks head links : List Char} :
      IsBlankRun blanks → IsHead head → IsLinks links → IsChain (blanks ++ (head ++ links))

end

/-- Blanks alone, or a chain with blanks behind it. The functions are called by the words in
`named`. -/
inductive IsSelector : List Char → Prop
  | blank {s : List Char} : IsBlankRun s → IsSelector s
  | chain {s blanks : List Char} : IsChain named s → IsBlankRun blanks → IsSelector (s ++ blanks)

end Chains

/-! ### The names of functions -/

section Names

variable {named other : List Char → Prop}

mutual

theorem IsPseudo.mono (h : ∀ name ∈ functionNames, named name → other name) {s : List Char} :
    IsPseudo named s → IsPseudo other s
  | .className hs => .className hs
  | .count hname hnamed hargs => .count hname (h _ hname.mem_functionNames hnamed) hargs
  | .is hnamed htype hlinks hblanks =>
      .is (h _ (by simp [functionNames]) hnamed) htype (hlinks.mono h) hblanks
  | .not hnamed hchain hblanks =>
      .not (h _ (by simp [functionNames]) hnamed) (hchain.mono h) hblanks

theorem IsHead.mono (h : ∀ name ∈ functionNames, named name → other name) {s : List Char} :
    IsHead named s → IsHead other s
  | .typeName hs => .typeName hs
  | .nesting => .nesting
  | .pseudo hs => .pseudo (hs.mono h)
  | .styleClass hs => .styleClass hs
  | .elementName hs => .elementName hs

theorem IsLink.mono (h : ∀ name ∈ functionNames, named name → other name) {s : List Char} :
    IsLink named s → IsLink other s
  | .pseudo hs => .pseudo (hs.mono h)
  | .styleClass hs => .styleClass hs
  | .elementName hs => .elementName hs
  | .predicate hs => .predicate hs
  | .child hbefore hafter hhead => .child hbefore hafter (hhead.mono h)
  | .template hbefore hafter hhead => .template hbefore hafter (hhead.mono h)
  | .descendant hblanks hne hhead => .descendant hblanks hne (hhead.mono h)
  | .alternative hbefore hafter hhead => .alternative hbefore hafter (hhead.mono h)

theorem IsLinks.mono (h : ∀ name ∈ functionNames, named name → other name) {s : List Char} :
    IsLinks named s → IsLinks other s
  | .nil => .nil
  | .cons hlink hlinks => .cons (hlink.mono h) (hlinks.mono h)

theorem IsChain.mono (h : ∀ name ∈ functionNames, named name → other name) {s : List Char} :
    IsChain named s → IsChain other s
  | .mk hblanks hhead hlinks => .mk hblanks (hhead.mono h) (hlinks.mono h)

end

theorem IsSelector.mono (h : ∀ name ∈ functionNames, named name → other name) {s : List Char} :
    IsSelector named s → IsSelector other s
  | .blank hs => .blank hs
  | .chain hchain hblanks => .chain (hchain.mono h) hblanks

theorem isSelector_pseudo {s : List Char} (h : IsPseudo named s) :
    IsSelector named (':' :: s) := by
  have hnone : IsBlankRun [] := by simp [IsBlankRun]
  simpa using IsSelector.chain (.mk hnone (.pseudo h) .nil) hnone

theorem exists_isPseudo {name : List Char} (hname : name ∈ functionNames) (h : named name) :
    ∃ args, IsPseudo named (name ++ '(' :: args) := by
  have hnone : IsBlankRun [] := by simp [IsBlankRun]
  have htrim : trim ['n'] = ['n'] := by decide
  have hcount : IsCountText ['n'] := ⟨by simp, .inr (.inr (by simp [htrim]))⟩
  simp only [functionNames, List.mem_cons, List.not_mem_nil, or_false] at hname
  rcases hname with rfl | rfl | rfl | rfl
  · have htype : IsTypeName ['_'] := .plain ⟨by simp [isIdentifierStart], by simp⟩
    exact ⟨_, .is h htype .nil hnone⟩
  · exact ⟨_, .not h (.mk hnone .nesting .nil) hnone⟩
  · exact ⟨_, .count .nthChild h hcount⟩
  · exact ⟨_, .count .nthLastChild h hcount⟩

end Names

end XamlAssist.Selector
