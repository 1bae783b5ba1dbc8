import Mathlib.Logic.Function.Basic
import TreeFrog.ErbParser

/-!
`THtmlElement` and the element table of `THtmlParser`: the vector of the elements, each with the
index of its parent and the list of its children, the operations on it, and its serialisation.

Element 0 is the root. A recursion of the source has fuel here, and is none if that runs out.
-/

namespace TreeFrog.HtmlElement

open ErbParser

/-! ### Elements -/

/-- An attribute; the value is none where the `QString` of the source is null. -/
abbrev Attribute := QString × Option QString

structure THtmlElement where
  tag : QString := []
  attributes : List Attribute := []
  selfCloseMark : QString := []
  text : QString := []
  tagClosed : Bool := false
  parent : ℕ := 0
  children : List ℕ := []
  deriving DecidableEq, Repr

/-- `QString::toLower`, for names of tags, which are ASCII. -/
def toLower (s : QString) : QString := s.map Char.toLower

/-- `THttpUtility::trimmedQuotes`. -/
def trimmedQuotes (string : QString) : QString :=
  let s := trimmed string
  if 1 < s.length ∧ ((s.head? = some '"' ∧ s.getLast? = some '"') ∨
      (s.head? = some '\'' ∧ s.getLast? = some '\'')) then (s.drop 1).dropLast
  else s

namespace THtmlElement

def isEmpty (e : THtmlElement) : Bool := e.tag.isEmpty && e.text.isEmpty && e.attributes.isEmpty

def isEndElement (e : THtmlElement) : Bool := e.children.isEmpty

def hasAttribute (e : THtmlElement) (name : QString) : Bool :=
  e.attributes.any fun p => p.1 = name

/-- `attribute`, with the default value null. -/
def attributeValue (e : THtmlElement) (name : QString) : Option QString :=
  (e.attributes.find? fun p => p.1 = name).bind fun p => p.2.map trimmedQuotes

/-- The loop of `setAttribute`. -/
def setFirst (name : QString) (v : Option QString) : List Attribute → List Attribute
  | [] => [(name, v)]
  | p :: ps => if p.1 = name then (name, v) :: ps else p :: setFirst name v ps

def setAttribute (e : THtmlElement) (name : QString) (value : Option QString) : THtmlElement :=
  { e with attributes := setFirst name (value.map fun v => '"' :: (v ++ ['"'])) e.attributes }

def removeAttribute (e : THtmlElement) (name : QString) : THtmlElement :=
  { e with attributes := e.attributes.filter fun p => p.1 ≠ name }

/-- `clear`, which keeps the parent. -/
def clear (e : THtmlElement) : THtmlElement := { parent := e.parent }

/-- One turn of `attributesString`. -/
def appendAttribute (string : QString) (attr : Attribute) : QString :=
  let separator := if !(attr.1.head?.any isSpace) && !string.isEmpty &&
      !(string.getLast?.any isSpace) then [' '] else []
  let value := attr.2.getD []
  string ++ separator ++ attr.1 ++ if value.isEmpty then [] else '=' :: value

def attributesString (e : THtmlElement) : QString :=
  if e.tag.isEmpty then [] else e.attributes.foldl appendAttribute []

def toString (e : THtmlElement) : QString :=
  (if e.tag.isEmpty then []
    else '<' :: e.tag ++ (if e.attributes.isEmpty then [] else ' ' :: e.attributesString) ++
      e.selfCloseMark ++ ['>']) ++ e.text

/-- The end tag that `elementsToString` adds. -/
def endTag (e : THtmlElement) : QString :=
  if !e.tag.isEmpty && e.tagClosed then lit "</" ++ e.tag ++ ['>'] else []

end THtmlElement

/-! ### The table -/

structure THtmlParser where
  elementCount : ℕ
  elements : ℕ → THtmlElement

/-- Where `insert` and `append` put the child `i`. -/
def place (children : List ℕ) (index : ℤ) (i : ℕ) : List ℕ :=
  if 0 ≤ index ∧ index < children.length then children.insertIdx index.toNat i
  else children ++ [i]

namespace THtmlParser

/-- A parser with the root alone. -/
def new : THtmlParser where
  elementCount := 1
  elements _ := {}

def lastIndex (d : THtmlParser) : ℕ := d.elementCount - 1

def last (d : THtmlParser) : THtmlElement := d.elements d.lastIndex

/-- An assignment through the reference `at(i)`. -/
def modify (d : THtmlParser) (i : ℕ) (f : THtmlElement → THtmlElement) : THtmlParser :=
  { d with elements := Function.update d.elements i (f (d.elements i)) }

def changeParent (d : THtmlParser) (index newParent : ℕ) (newIndex : ℤ) : THtmlParser :=
  ((d.modify (d.elements index).parent fun p =>
      { p with children := p.children.erase index }).modify
    index fun e => { e with parent := newParent }).modify newParent fun p =>
      { p with children := place p.children newIndex index }

/-- `elements.resize(elements.size() + 1)`. -/
def grow (d : THtmlParser) : THtmlParser where
  elementCount := d.elementCount + 1
  elements := Function.update d.elements d.elementCount {}

/-- `insertNewElement`; the new element is the last one. -/
def insertNewElement (d : THtmlParser) (parent : ℕ) (index : ℤ) : THtmlParser :=
  if 1 < d.elementCount ∧ d.last.isEmpty then d.changeParent d.lastIndex parent index
  else (d.grow.modify d.elementCount fun e => { e with parent := parent }).modify parent fun p =>
    { p with children := place p.children index d.elementCount }

def appendNewElement (d : THtmlParser) (parent : ℕ) : THtmlParser := d.insertNewElement parent (-1)

def nextElementInSameParent (d : THtmlParser) (index : ℕ) : Option ℕ :=
  let children := (d.elements (d.elements index).parent).children
  if index ∈ children then children[children.idxOf index + 1]? else none

/-- A newline at the start of the text goes. -/
def removeNewlineOfText (e : THtmlElement) : THtmlElement :=
  { e with text := if e.text.head? = some '\n' then e.text.drop 1 else e.text }

/-- A newline goes from the text behind the element. -/
def removeNewlineBehind (d : THtmlParser) (index : ℕ) : THtmlParser :=
  match d.nextElementInSameParent index with
  | some idx =>
    if 0 < idx ∧ (d.elements idx).tag.isEmpty then d.modify idx removeNewlineOfText else d
  | none => d

/-- `removeChildElements`, with `removeElementTree` of a child. -/
def removeChildElements : ℕ → THtmlParser → ℕ → Option THtmlParser
  | 0, _, _ => none
  | fuel + 1, d, index =>
    (d.elements index).children.foldlM
      (fun d child => (removeChildElements fuel d child).map fun d => d.modify child (·.clear)) d

def removeElementTree (d : THtmlParser) (index : ℕ) (removeNewline : Bool) : Option THtmlParser :=
  (removeChildElements d.elementCount d index).map fun d =>
    let d := d.modify index (·.clear)
    if removeNewline then d.removeNewlineBehind index else d

def removeTag (d : THtmlParser) (index : ℕ) : THtmlParser :=
  (d.modify index fun e => removeNewlineOfText { e with tag := [] }).removeNewlineBehind index

/-! ### Reading -/

def isElementClosed (d : THtmlParser) (i : ℕ) : Bool :=
  i = 0 || (d.elements i).tagClosed || !(d.elements i).selfCloseMark.isEmpty ||
    toLower (d.elements i).tag ∈ [lit "img", lit "hr", lit "br", lit "meta"]

def depth : ℕ → THtmlParser → ℕ → Option ℕ
  | 0, _, _ => none
  | fuel + 1, d, i => if 0 < i then (depth fuel d (d.elements i).parent).map (· + 1) else some 0

def parentExists : ℕ → THtmlParser → ℕ → QString → Option Bool
  | 0, _, _, _ => none
  | fuel + 1, d, i, tag =>
    if toLower (d.elements i).tag = toLower tag then some true
    else if i = 0 then some false
    else parentExists fuel d (d.elements i).parent tag

def elementsToString : ℕ → THtmlParser → ℕ → Option QString
  | 0, _, _ => none
  | fuel + 1, d, index =>
    ((d.elements index).children.mapM (elementsToString fuel d)).map fun strings =>
      (d.elements index).toString ++ strings.flatten ++ (d.elements index).endTag

def toString (d : THtmlParser) : Option QString := elementsToString d.elementCount d 0

/-! ### Copying -/

/-- `mid`. A parent outside the part that is copied loses its meaning; below zero it would be
negative in the source. -/
def mid (d : THtmlParser) (index : ℕ) : THtmlParser :=
  if (d.elements index).isEndElement then
    { elementCount := 2
      elements := Function.update (Function.update (fun _ => {}) 0 { children := [1] }) 1
        { d.elements index with parent := 0 } }
  else
    { elementCount := d.elementCount - index + 1
      elements := fun i =>
        if i = 0 then { children := [1] }
        else
          let e := d.elements (index + (i - 1))
          { e with
            parent := e.parent - (index - 1)
            children := e.children.map (· - (index - 1)) } }

/-- The content of `other`, in the place of this one. -/
def copyContent (e other : THtmlElement) : THtmlElement :=
  { other with parent := e.parent, children := e.children }

/-- `append` and `prepend`: an element with the content of the first one of `parser` at the
`index` among the children of the parent, and the children of that one below it in the same
way. -/
def attach (index : ℤ) : ℕ → THtmlParser → ℕ → THtmlParser → Option THtmlParser
  | 0, _, _, _ => none
  | fuel + 1, d, parent, parser =>
    if parser.elementCount ≤ 1 then some d
    else
      let d := d.insertNewElement parent index
      let idx := d.lastIndex
      (parser.elements 1).children.foldlM
        (fun d child => attach index fuel d idx (parser.mid child))
        (d.modify idx fun e => copyContent e (parser.elements 1))

def append (d : THtmlParser) (parent : ℕ) (parser : THtmlParser) : Option THtmlParser :=
  attach (-1) parser.elementCount d parent parser

def prepend (d : THtmlParser) (parent : ℕ) (parser : THtmlParser) : Option THtmlParser :=
  attach 0 parser.elementCount d parent parser

/-- The attributes and the text that `merge` takes over. -/
def mergeElement (e other : THtmlElement) : THtmlElement :=
  let e := other.attributes.foldl (fun e p => e.setAttribute p.1 (p.2.map trimmedQuotes)) e
  if !other.text.isEmpty || (e.children.isEmpty && !other.children.isEmpty) then
    { e with text := other.text }
  else e

def merge (d other : THtmlParser) : Option THtmlParser :=
  if d.elementCount ≤ 1 ∨ other.elementCount ≤ 1 ∨
      (d.elements 1).tag ≠ (other.elements 1).tag then some d
  else
    (other.elements 1).children.foldlM (fun d child => d.prepend 1 (other.mid child))
      (d.modify 1 fun e => mergeElement e (other.elements 1))

end THtmlParser

end TreeFrog.HtmlElement
