import YangScript.Xml.Stream

/-!
# Documents as syntax trees

The grammar of well-formed documents, written as types whose values carry what makes them well
formed: names without markup, values without their own quote, attributes of distinct keys, and
asides that do not hold the mark that ends them. Blanks are part of a tree, so every layout of a
document is a tree of its own, and `Document.text` writes it out. Nothing here mentions the reader.
-/

set_option autoImplicit false

namespace YangScript.Xml

open YangScript.Text

structure Blanks where
  chars : List Char
  blank : ∀ c ∈ chars, isBlank c = true

def Blanks.none : Blanks := ⟨[], by simp⟩

def Blanks.space : Blanks := ⟨[' '], by simp [isBlank]⟩

/-- Characters that may stand in the name of an element or of an attribute. -/
def isNameChar (c : Char) : Bool :=
  !(isBlank c || isQuote c || c == '<' || c == '>' || c == '/' || c == '=' || c == '!' || c == '?')

structure Name where
  chars : List Char
  present : chars ≠ []
  legal : ∀ c ∈ chars, isNameChar c = true

/-- A text that can be the name of an element or of an attribute. -/
def IsName (s : String) : Prop := s.toList ≠ [] ∧ ∀ c ∈ s.toList, isNameChar c = true

instance (s : String) : Decidable (IsName s) :=
  decidable_of_iff (s.toList ≠ [] ∧ s.toList.all isNameChar = true)
    (and_congr_right fun _ => List.all_eq_true)

def Name.ofString (s : String) (h : IsName s) : Name := ⟨s.toList, h.1, h.2⟩

/-- An attribute as it is written: blanks set it off and may stand around its equals sign. -/
structure AttributeText where
  lead : Blanks
  apart : lead.chars ≠ []
  key : Name
  before : Blanks
  after : Blanks
  quote : Char
  quoting : isQuote quote = true
  value : List Char
  closed : quote ∉ value

def AttributeText.chars (a : AttributeText) : List Char :=
  a.lead.chars ++ a.key.chars ++ a.before.chars ++ '=' :: a.after.chars ++
    a.quote :: a.value ++ [a.quote]

def AttributeText.attribute (a : AttributeText) : Attribute :=
  ⟨String.ofList a.key.chars, String.ofList a.value⟩

structure TagText where
  name : Name
  attributes : List AttributeText
  distinct : (attributes.map (fun a => a.key.chars)).Nodup
  trail : Blanks

def TagText.chars (t : TagText) : List Char :=
  t.name.chars ++ t.attributes.flatMap AttributeText.chars ++ t.trail.chars

/-- Text in which `>` may stand inside quotes only. -/
inductive QuotedPart where
  | plain (c : Char) (bare : isQuote c = false ∧ c ≠ '>' ∧ c ≠ '[')
  | quoted (quote : Char) (quoting : isQuote quote = true) (body : List Char)
      (closed : quote ∉ body)

def QuotedPart.chars : QuotedPart → List Char
  | plain c _ => [c]
  | quoted quote _ body _ => quote :: body ++ [quote]

/-- The declarations of an internal subset whose quotes count. -/
def quotingWords : List (List Char) :=
  [['!', 'E', 'N', 'T', 'I', 'T', 'Y'], ['!', 'A', 'T', 'T', 'L', 'I', 'S', 'T'],
    ['!', 'N', 'O', 'T', 'A', 'T', 'I', 'O', 'N']]

/-- Text without quotes that count, from after `<`, that is none of the other declarations. -/
structure BareDeclaration where
  body : List Char
  closed : '>' ∉ body
  noInstruction : ¬ ['?'] <+: body
  noComment : ¬ ['!', '-', '-'] <+: body
  noQuoting : ∀ word ∈ quotingWords, ¬ word <+: body

inductive SubsetPart where
  | plain (c : Char) (bare : c ≠ ']' ∧ c ≠ '<')
  | comment (body : List Char) (closed : ¬ commentMark <:+: body)
  | instruction (body : List Char) (closed : ¬ instructionMark <:+: body)
  | quoting (word : List Char) (known : word ∈ quotingWords) (parts : List QuotedPart)
  | bare (d : BareDeclaration)

def SubsetPart.chars : SubsetPart → List Char
  | plain c _ => [c]
  | comment body _ => '<' :: '!' :: '-' :: '-' :: body ++ commentMark
  | instruction body _ => '<' :: '?' :: body ++ instructionMark
  | quoting word _ parts => '<' :: word ++ parts.flatMap QuotedPart.chars ++ ['>']
  | bare d => '<' :: d.body ++ ['>']

/-- An internal subset, from its opening bracket to before the end of the document type. -/
structure Subset where
  parts : List SubsetPart
  trail : Blanks

def Subset.chars (s : Subset) : List Char :=
  '[' :: s.parts.flatMap SubsetPart.chars ++ ']' :: s.trail.chars

structure Doctype where
  head : List QuotedPart
  named : ∃ c ∈ head.flatMap QuotedPart.chars, isBlank c = false
  subset : Option Subset

def doctypeWord : List Char := ['D', 'O', 'C', 'T', 'Y', 'P', 'E']

/-- The part of a document type after its keyword. -/
def Doctype.body (d : Doctype) : List Char :=
  d.head.flatMap QuotedPart.chars ++ (d.subset.map Subset.chars).getD [] ++ ['>']

def cdataWord : List Char := ['C', 'D', 'A', 'T', 'A', '[']

inductive Aside where
  | comment (body : List Char) (closed : ¬ commentMark <:+: body)
  | cdata (body : List Char) (closed : ¬ cdataMark <:+: body)
  | instruction (body : List Char) (closed : ¬ instructionMark <:+: body)
      (begun : body.head? ≠ some '>')
  | reference (name : List Char) (closed : ∀ c ∈ name, c ≠ ';' ∧ c ≠ '&' ∧ c ≠ '<')
  | doctype (d : Doctype)

def Aside.chars : Aside → List Char
  | comment body _ => '<' :: '!' :: '-' :: '-' :: body ++ commentMark
  | cdata body _ => '<' :: '!' :: '[' :: cdataWord ++ body ++ cdataMark
  | instruction body _ _ => '<' :: '?' :: body ++ instructionMark
  | reference name _ => '&' :: name ++ [';']
  | doctype d => '<' :: '!' :: doctypeWord ++ d.body

structure CharData where
  chars : List Char
  legal : ∀ c ∈ chars, inText c = true

def CharData.none : CharData := ⟨[], by simp⟩

mutual

inductive Node where
  | aside (a : Aside)
  | empty (tag : TagText)
  | element (tag : TagText) (content : Content) (closing : Blanks)

/-- Text and nodes in turn. The text between two nodes may be empty. -/
inductive Content where
  | last (text : CharData)
  | next (text : CharData) (node : Node) (rest : Content)

end

mutual

def Node.chars : Node → List Char
  | .aside a => a.chars
  | .empty tag => '<' :: tag.chars ++ ['/', '>']
  | .element tag content closing =>
    '<' :: tag.chars ++ '>' :: content.chars ++
      '<' :: '/' :: tag.name.chars ++ closing.chars ++ ['>']

def Content.chars : Content → List Char
  | .last text => text.chars
  | .next text node rest => text.chars ++ node.chars ++ rest.chars

end

/-- A document may begin with a byte order mark, and not with a second one. -/
structure Document where
  marked : Bool
  content : Content
  unmarked : content.chars.head? ≠ some '\uFEFF'

def Document.text (d : Document) : String :=
  String.ofList (if d.marked then '\uFEFF' :: d.content.chars else d.content.chars)

end YangScript.Xml
