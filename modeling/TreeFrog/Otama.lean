import TreeFrog.HtmlMerge
import TreeFrog.Lines

/-!
`OtamaConverter::convertToErb`: an HTML document and a logic file, whose rules name elements by
their labels, become an ERB template.
-/

namespace TreeFrog.Otama

open ErbParser hiding parse parseLoop
open Search HtmlElement THtmlParser HtmlScan HtmlParser

/-! ### The logic file -/

inductive OperatorType where
  | tagReplacement
  | contentAssignment
  | attributeSet
  | tagMerging
  deriving DecidableEq

def opHash : OperatorType → QString
  | .tagReplacement => lit ":"
  | .contentAssignment => lit "~"
  | .attributeSet => lit "+"
  | .tagMerging => lit "|=="

inductive EchoOption where
  | none
  | normalEcho
  | escapeEcho
  | exportVarEcho
  | exportVarEscapeEcho
  deriving DecidableEq

def includeLabel : QString := lit "#include"
def initLabel : QString := lit "#init"

/-- The rules, the last one first, and the marker, which is not empty. -/
structure OtmParser where
  repMarker : QString
  entries : List (QString × QString) := []

/-- `QTextStream::readLine`, line by line. -/
def readLines (text : QString) : List QString :=
  (Lines.cut '\n' text).map fun line =>
    let line := if line.getLast? = some '\n' then line.dropLast else line
    if line.getLast? = some '\r' then line.dropLast else line

/-- Where the loop of `parse` stands. -/
structure Reading where
  lineCont : Bool := false
  label : QString := []
  value : QString := []
  entries : List (QString × QString) := []

/-- A rule without an operator is one with `:`. -/
def withOperator (str : QString) : QString :=
  if str.head?.any fun c => !([':', '~', '+', '|'].contains c) then ':' :: str else str

def isLabelChar (c : Char) : Bool := isAlnum c || c = '_'

/-- The end of the label at the start of the line; none if the label is all. -/
def labelEnd (line : QString) : Option ℕ :=
  let n := 1 + ((line.drop 1).takeWhile isLabelChar).length
  if n < line.length then some n else none

def isLabelLine (line : QString) : Bool :=
  (line.head? = some '#' || line.head? = some '@') && (line.drop 1).head?.any (!isSpace ·)

/-- One turn of the loop of `parse`. -/
def Reading.step (st : Reading) (line : QString) : Reading :=
  if (trimmed line).isEmpty then
    if st.label.isEmpty then { st with lineCont := false }
    else { entries := (st.label, withOperator (trimmed st.value)) :: st.entries }
  else if st.lineCont then { st with value := st.value ++ '\n' :: line }
  else if isLabelLine line then
    if (includeLabel ++ [' ']).isPrefixOf line then
      let i := (labelEnd line).getD line.length
      { st with entries := (line.take i, trimmed (line.drop i)) :: st.entries }
    else
      match labelEnd line with
      | some i => { st with lineCont := true, label := line.take i, value := line.drop i }
      | none => { st with lineCont := true, label := line }
  else st

namespace OtmParser

/-- `parse`; the null line at the end counts as empty. -/
def parse (repMarker text : QString) : OtmParser where
  repMarker := repMarker
  entries := ((readLines text ++ [[]]).foldl Reading.step {}).entries

def values (otm : OtmParser) (label : QString) : List QString :=
  (otm.entries.filter fun p => p.1 = label).map Prod.snd

def contains (otm : OtmParser) (s : QString) : Bool := (search otm.repMarker s).isSome

/-- The kind of echo at the start of the code, and the code behind it. -/
def echo (op : OperatorType) (code : QString) : QString × EchoOption :=
  if op = .tagMerging then
    if code.head? = some '$' then (code.drop 1, .exportVarEcho) else (code, .none)
  else if (lit "==$").isPrefixOf code then (code.drop 3, .exportVarEcho)
  else if (lit "=$").isPrefixOf code then (code.drop 2, .exportVarEscapeEcho)
  else if (lit "==").isPrefixOf code then (code.drop 2, .normalEcho)
  else if (lit "=").isPrefixOf code then (code.drop 1, .escapeEcho)
  else (code, .none)

def getSrcCode (otm : OtmParser) (label : QString) (op : OperatorType) : QString × EchoOption :=
  match (otm.values label).find? fun s => (opHash op).isPrefixOf s && !otm.contains s with
  | some s =>
    let code := echo op (s.drop (opHash op).length)
    (trimmed code.1, code.2)
  | none => ([], .none)

/-- `split`, with as many turns. -/
def pieces (sep : QString) : ℕ → QString → List QString
  | 0, t => [t]
  | turns + 1, t =>
    match search sep t with
    | some i => t.take i :: pieces sep turns (t.drop (i + sep.length))
    | none => [t]

/-- `split` with `SkipEmptyParts`. -/
def split (sep t : QString) : List QString := (pieces sep t.length t).filter (· ≠ [])

def getWrapSrcCode (otm : OtmParser) (label : QString) (op : OperatorType) : List QString :=
  if op = .tagReplacement ∨ op = .contentAssignment then
    match (otm.values label).find? fun s => (opHash op).isPrefixOf s && otm.contains s with
    | some s => split otm.repMarker (trimmed (s.drop (opHash op).length))
    | none => []
  else []

def includeStrings (otm : OtmParser) : List QString :=
  (otm.values includeLabel).map fun s => includeLabel ++ ' ' :: s

/-- The operator of `#init`, of which `[:~+]={0,2}` goes. -/
def withoutOperator (code : QString) : QString :=
  if code.head?.any [':', '~', '+'].contains then
    (code.drop 1).drop (((code.drop 1).take 2).takeWhile (· = '=')).length
  else if (opHash .tagMerging).isPrefixOf code then code.drop (opHash .tagMerging).length
  else code

def getInitSrcCode (otm : OtmParser) : QString :=
  trimmed (withoutOperator ((otm.values initLabel).headD []))

end OtmParser

/-! ### The converter -/

def tfAttributeName : QString := lit "data-tf"
def leftDelim : QString := lit "<% "
def rightDelim : QString := lit " %>"
def rightDelimNoTrim : QString := lit " +%>"
def dummyLabel : QString := lit "@dummy"
def dummyTagLabel : QString := lit "@dummytag"

/-- `remove(QRegExp(";+$"))`. -/
def removeSemicolons (s : QString) : QString := s.rdropWhile (· = ';')

def generateErbPhrase (str : QString) (echoOption : EchoOption) : QString :=
  let s := removeSemicolons str
  let echoed (name : QString) := leftDelim ++ name ++ s ++ ')' :: rightDelimNoTrim
  match echoOption with
  | .none => leftDelim ++ s ++ rightDelim
  | .normalEcho => echoed (lit "echo(")
  | .escapeEcho => echoed (lit "eh(")
  | .exportVarEcho => echoed (lit "techoex(")
  | .exportVarEscapeEcho => echoed (lit "tehex(")

/-- A block of code; in a script no white space behind it is trimmed. -/
def block (scriptArea : Bool) (code : QString) : QString :=
  leftDelim ++ code ++ if scriptArea then rightDelimNoTrim else rightDelim

/-- `ErbConverter::escapeNewline`. -/
def escapeNewline (string : QString) : QString :=
  string.flatMap fun s =>
    if s = '\\' then lit "\\\\"
    else if s = '\n' then lit "\\n"
    else if s = '\r' then lit "\\r"
    else if s = '"' then lit "\\\""
    else [s]

def setText (d : THtmlParser) (i : ℕ) (text : QString) : THtmlParser :=
  d.modify i fun e => { e with text := text }

/-- A new element of text alone. -/
def insertText (d : THtmlParser) (parent : ℕ) (index : ℤ) (text : QString) : THtmlParser :=
  let d := d.insertNewElement parent index
  setText d d.lastIndex text

section Element

variable (otm : OtmParser) (d : THtmlParser) (i : ℕ) (label : QString) (scriptArea : Bool)

/-- The operator `~`. -/
def assignContent : Option THtmlParser :=
  let val := otm.getSrcCode label .contentAssignment
  if !val.1.isEmpty then
    (THtmlParser.removeChildElements d.elementCount d i).map fun d =>
      setText d i (generateErbPhrase val.1 val.2)
  else
    match otm.getWrapSrcCode label .contentAssignment with
    | [] => some d
    | val :: vals =>
      let d := setText d i (block scriptArea (trimmed val) ++ (d.elements i).text)
      let s := trimmed (vals.headD [])
      some (if s.isEmpty then d else insertText d i (-1) (block scriptArea s))

/-- The code that prints the merged attributes. -/
def mergeCode (e : THtmlElement) (val : QString) (ech : EchoOption) : QString :=
  lit "do \x7b THtmlParser ___pr = THtmlParser::mergeElements(tr(\"" ++ escapeNewline e.toString ++
    lit "\"), (" ++ (if ech = .exportVarEcho then lit "T_VARIANT(" ++ val ++ lit ")" else val) ++
    lit ")); echo(___pr.at(1).attributesString()); "

/-- The operator `|==`. -/
def mergeTag : THtmlParser :=
  let val := otm.getSrcCode label .tagMerging
  if val.1.isEmpty then d
  else
    let attr := block scriptArea (mergeCode (d.elements i) (removeSemicolons val.1) val.2)
    d.modify i fun e => { e with
      attributes := [(attr, none)]
      text := block scriptArea
        (lit "eh(___pr.at(1).text); echo(___pr.childElementsToString(1)); \x7d while (0);") }

/-- The operator `+`. -/
def setAttributes : THtmlParser :=
  let val := otm.getSrcCode label .attributeSet
  if val.1.isEmpty then d
  else d.modify i (·.setAttribute (generateErbPhrase val.1 val.2) none)

/-- The operator `:`. -/
def replaceElement : Option THtmlParser :=
  let val := otm.getSrcCode label .tagReplacement
  if !val.1.isEmpty then
    (d.removeElementTree i false).map fun d => setText d i (generateErbPhrase val.1 val.2)
  else
    match otm.getWrapSrcCode label .tagReplacement with
    | [] => some d
    | val :: vals =>
      let parent := (d.elements i).parent
      let children := (d.elements parent).children
      let idx : ℤ := if i ∈ children then children.idxOf i else -1
      let d := insertText d parent idx (block scriptArea (trimmed val))
      let s := trimmed (vals.headD [])
      some (if s.isEmpty then d else insertText d parent (idx + 2) (block scriptArea s))

/-- One turn of the loop of `convertToErb`. -/
def convertElement : Option THtmlParser :=
  let label := ((d.elements i).attributeValue tfAttributeName).getD []
  let d := if (d.elements i).hasAttribute tfAttributeName then
    d.modify i (·.removeAttribute tfAttributeName) else d
  if label = dummyLabel then d.removeElementTree i true
  else if label = dummyTagLabel then some (d.removeTag i)
  else
    (parentExists d.elementCount d i (lit "script")).bind fun scriptArea =>
    (assignContent otm d i label scriptArea).bind fun d =>
    replaceElement otm (setAttributes otm (mergeTag otm d i label scriptArea) i label) i label
      scriptArea

end Element

/-- The loop from the element `i` down to the first one. -/
def convertLoop (otm : OtmParser) : ℕ → THtmlParser → Option THtmlParser
  | 0, d => some d
  | i + 1, d => (convertElement otm d (i + 1)).bind (convertLoop otm i)

def insertIncludes (d : THtmlParser) (inc : List QString) : THtmlParser :=
  inc.foldl (fun d s => insertText d 0 0 (trimmed leftDelim ++ s ++ rightDelim)) d

def insertInit (d : THtmlParser) (init : QString) : THtmlParser :=
  if init.isEmpty then d
  else setText d 0 (leftDelim ++ init ++ rightDelim ++ (d.elements 0).text)

/-- `convertToErb`, with the marker that the settings have. -/
def convertToErb (replaceMarker html otm : QString) (trimMode : TrimMode) : Option QString :=
  (parse trimMode html).toOption.bind fun st =>
    let otm := OtmParser.parse replaceMarker otm
    let d := insertInit (insertIncludes st.doc otm.includeStrings) otm.getInitSrcCode
    (convertLoop otm (d.elementCount - 1) d).bind THtmlParser.toString

end TreeFrog.Otama
