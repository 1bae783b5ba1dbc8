import Mathlib.Data.Nat.Digits.Defs
import TreeFrog.ErbParser

/-!
`TJSLoader::replaceRequire`: the calls of `require` in a script are replaced by variables, the
required files being evaluated first, their own calls replaced before.

A file counts as loaded when it has been evaluated, and a file that reads as empty is asked for
again. So the loop ends exactly if no chain of requirements comes to an empty file or back to
itself.
-/

namespace TreeFrog.JSLoader

open Search ErbParser

/-! ### Files -/

/-- What Qt tells about files: `QFileInfo`, `QDir` and `QFile`, and the `main` entry of the
`package.json` of a directory, empty if there is none. -/
structure FileSystem where
  isAbsolute : QString → Bool
  suffix : QString → QString
  absoluteFilePath : QString → QString → QString
  filePath : QString → QString → QString
  dir : QString → QString
  fileExists : QString → Bool
  canonicalFilePath : QString → QString
  packageMain : QString → QString
  /-- None if the file cannot be opened. -/
  readAll : QString → Option QString

inductive AltJS where
  | default
  | jsx
  deriving DecidableEq, Repr

def suffixMap : AltJS → QString
  | .default => lit "js"
  | .jsx => lit "jsx"

/-- What a `TJSLoader` keeps. -/
structure TJSLoader where
  altJs : AltJS
  searchPaths : List QString
  webRootPath : QString

/-- A variable for an evaluated file. -/
def isVarChar (c : Char) : Bool := c = '_' || c.isDigit || c.isLower

abbrev VarName := { name : QString // name ≠ [] ∧ name.all isVarChar }

/-- The JavaScript engine, with the names of the files that have been evaluated in it; `randoms`
counts the random numbers drawn. -/
structure TJSModule (E : Type) where
  engine : E
  loadedFiles : QString → Option VarName
  randoms : ℕ

/-- What a script is evaluated with: the engine, which tells of an error, the checksum of a text,
and the random numbers. -/
structure Runtime (E : Type) where
  evaluate : E → QString → QString → E × Bool
  qChecksum : QString → ℕ
  rand32 : ℕ → ℕ

variable (fs : FileSystem) (loader : TJSLoader)

/-- `read`; a file that cannot be read is empty. -/
def read (filePath : QString) : QString :=
  if filePath.isEmpty || !fs.fileExists filePath then []
  else (fs.readAll filePath).getD []

/-- A module name with its suffix. -/
def withSuffix (present : Bool) (moduleName : QString) (alt : AltJS) : QString :=
  if present then moduleName else moduleName ++ '.' :: suffixMap alt

/-- The loop over the search paths. -/
def searchIn (moduleName : QString) (alt : AltJS) : List QString → QString
  | [] => []
  | spath :: spaths =>
    let p := trimmed spath
    if p.isEmpty then searchIn moduleName alt spaths
    else
      let path := if fs.isAbsolute p then p else loader.webRootPath ++ p
      let mod := withSuffix (('.' :: suffixMap alt).isSuffixOf moduleName) moduleName alt
      let fpath := fs.absoluteFilePath path mod
      if fs.fileExists fpath then fpath
      else
        let path := fs.filePath path moduleName
        let mainjs := fs.packageMain path
        if mainjs.isEmpty then searchIn moduleName alt spaths
        else fs.absoluteFilePath path mainjs

def searchPath (moduleName : QString) (alt : AltJS) : QString :=
  fs.canonicalFilePath (searchIn fs loader moduleName alt loader.searchPaths)

def absolutePath (moduleName dir : QString) (alt : AltJS) : QString :=
  let hasSuffix := fs.suffix moduleName = suffixMap loader.altJs
  let filePath :=
    if moduleName.isEmpty then []
    else if fs.isAbsolute moduleName then withSuffix hasSuffix moduleName alt
    else if (lit "./").isPrefixOf moduleName then
      fs.absoluteFilePath dir (withSuffix hasSuffix moduleName alt)
    else if fs.fileExists (fs.absoluteFilePath dir (withSuffix false moduleName alt)) then
      fs.absoluteFilePath dir (withSuffix false moduleName alt)
    else searchPath fs loader moduleName alt
  if filePath.isEmpty then [] else fs.canonicalFilePath filePath

/-! ### Comments -/

/-- The position behind the next occurrence of `needle` from `idx` on. -/
def behind (needle content : QString) (idx : ℕ) : Option ℕ :=
  (search needle (content.drop idx)).map fun i => idx + i + needle.length

/-- One turn of the loop of `isCommentPosition`, at the character `ch`; none where a comment or a
literal does not end. -/
def commentStep (content : QString) (idx : ℕ) (ch : Char) : Option ℕ :=
  if ch = '/' then
    if (content.drop idx).take 2 = lit "/*" then behind (lit "*/") content (idx + 1)
    else if (content.drop idx).take 2 = lit "//" then behind ['\n'] content (idx + 1)
    else some (idx + 1)
  else if ch = '"' then behind ['"'] content (idx + 1)
  else if ch = '\'' then behind ['\''] content (idx + 1)
  else some (idx + 1)

/-- The loop; every turn advances, so that `pos` turns are enough. -/
def commentLoop (content : QString) (pos : ℕ) : ℕ → ℕ → Bool
  | 0, idx => idx ≠ pos
  | turns + 1, idx =>
    if idx < pos then
      match content[idx]? with
      | none => true
      | some ch =>
        match commentStep content idx ch with
        | none => true
        | some idx => commentLoop content pos turns idx
    else idx ≠ pos

def isCommentPosition (content : QString) (pos : ℕ) : Bool :=
  if content.length ≤ pos then false else commentLoop content pos pos 0

/-! ### The expression for `require` -/

/-- A match: how far ahead it begins, its length, and the module. -/
structure Match where
  skip : ℕ
  length : ℕ
  module : QString

/-- What may stand in the name of a module. -/
def isModuleChar (c : Char) : Bool := c ∉ ['(', ')', '"', '\'', ' ', ',']

def isQuote (c : Char) : Bool := c = '"' || c = '\''

/-- The text behind `c`, where a text begins with a character of this kind. -/
def expect (p : Char → Bool) : QString → Option QString
  | [] => none
  | c :: cs => if p c then some cs else none

/-- The expression `require\s*\(\s*["']([^\(\)"' ,]+)["']\s*\)` at the start of a text; each of
its parts can match in one way only. -/
def matchRequire (text : QString) : Option Match := do
  guard ((lit "require").isPrefixOf text)
  let rest ← expect (· = '(') ((text.drop 7).dropWhile isSpace)
  let rest ← expect isQuote (rest.dropWhile isSpace)
  let module := rest.takeWhile isModuleChar
  guard (module ≠ [])
  let rest ← expect isQuote (rest.dropWhile isModuleChar)
  let rest ← expect (· = ')') (rest.dropWhile isSpace)
  return ⟨0, text.length - rest.length, module⟩

/-- `rx.indexIn`: the first match. -/
def findRequire : QString → Option Match
  | [] => none
  | c :: cs =>
    match matchRequire (c :: cs) with
    | some m => some m
    | none => (findRequire cs).map fun m => { m with skip := m.skip + 1 }

/-! ### `replaceRequire` -/

def digit36 (d : ℕ) : Char := Char.ofNat (if d < 10 then 48 + d else 87 + d)

/-- `QString::number(n, 36)` -/
def number36 (n : ℕ) : QString :=
  if n = 0 then ['0'] else ((Nat.digits 36 n).map digit36).reverse

def varText (random checksum pos : ℕ) : QString :=
  lit "_tf" ++ number36 random ++ '_' :: number36 checksum ++ '_' :: number36 pos

lemma isVarChar_digit36 : ∀ d < 36, isVarChar (digit36 d) := by decide

lemma number36_all (n : ℕ) : (number36 n).all isVarChar := by
  rw [number36]
  split_ifs
  · rfl
  · simp only [List.all_reverse, List.all_map, List.all_eq_true, Function.comp_apply]
    exact fun d hd => isVarChar_digit36 d (Nat.digits_lt_base (by omega) hd)

def varName (random checksum pos : ℕ) : VarName :=
  ⟨varText random checksum pos, by simp [varText, lit], by
    simp only [varText, List.all_append, List.all_cons, number36_all, Bool.and_true]
    rfl⟩

variable {E : Type} (rt : Runtime E)

/-- The script of a required file as a function that is called at once. -/
def wrap (name : VarName) (require : QString) : QString :=
  lit "var " ++ name.val ++ lit "=function()\x7b" ++ require ++ lit ";return module.exports;\x7d();"

/-- Evaluates a required file; without an error it is loaded. -/
def load (context : TJSModule E) (module filePath require : QString) (name : VarName) :
    TJSModule E :=
  let res := rt.evaluate context.engine (wrap name require) module
  { engine := res.1
    loadedFiles :=
      if res.2 then context.loadedFiles
      else Function.update context.loadedFiles filePath (some name)
    randoms := context.randoms + 1 }

def replace (content : QString) (pos length : ℕ) (name : VarName) : QString :=
  content.take pos ++ name.val ++ content.drop (pos + length)

/-- The loop of `replaceRequire`, and with it the calls for the required files; none if it needs
more turns. `checksum` is that of the text the loop has begun with. -/
def replaceLoop (checksum : ℕ) (dir : QString) : ℕ → TJSModule E → QString → ℕ →
    Option (QString × TJSModule E)
  | 0, _, _, _ => none
  | fuel + 1, context, content, pos =>
    match findRequire (content.drop pos) with
    | none => some (content, context)
    | some m =>
      let pos := pos + m.skip
      if isCommentPosition content pos then
        replaceLoop checksum dir fuel context content (pos + m.length)
      else
        let filePath := absolutePath fs loader m.module dir .default
        if filePath.isEmpty then replaceLoop checksum dir fuel context content (pos + 1)
        else
          match context.loadedFiles filePath with
          | some name =>
            replaceLoop checksum dir fuel context (replace content pos m.length name)
              (pos + name.val.length)
          | none =>
            let require := read fs filePath
            let inner :=
              if require.isEmpty then some (require, context)
              else replaceLoop (rt.qChecksum require) (fs.dir filePath) fuel context require 0
            match inner with
            | none => none
            | some (require, context) =>
              if require.isEmpty then replaceLoop checksum dir fuel context content pos
              else
                let name := varName (rt.rand32 context.randoms) checksum pos
                replaceLoop checksum dir fuel (load rt context m.module filePath require name)
                  (replace content pos m.length name) (pos + name.val.length)

/-- `replaceRequire`, for a context that is there. -/
def replaceRequire (fuel : ℕ) (context : TJSModule E) (content dir : QString) :
    Option (QString × TJSModule E) :=
  if content.isEmpty then some (content, context)
  else replaceLoop fs loader rt (rt.qChecksum content) dir fuel context content 0

def Terminates (context : TJSModule E) (content dir : QString) : Prop :=
  ∃ fuel, (replaceRequire fs loader rt fuel context content dir).isSome

/-! ### Comments by a machine -/

/-- Where a script stands: in code, behind a slash, in a block comment, behind a star there, or in a
text that the character ends. -/
inductive Mode where
  | code
  | slash
  | block
  | star
  | upTo (last : Char)
  deriving DecidableEq, Repr

namespace Mode

def ofCode (c : Char) : Mode :=
  if c = '/' then slash else if c = '"' ∨ c = '\'' then .upTo c else code

def step : Mode → Char → Mode
  | code, c => ofCode c
  | slash, c => if c = '*' then star else if c = '/' then .upTo '\n' else ofCode c
  | block, c => if c = '*' then star else block
  | star, c => if c = '/' then code else if c = '*' then star else block
  | .upTo last, c => if c = last then code else .upTo last

def run (m : Mode) (text : QString) : Mode := text.foldl step m

/-- In a comment or a literal. -/
def inside : Mode → Bool
  | code => false
  | slash => false
  | _ => true

@[simp] lemma run_nil (m : Mode) : m.run [] = m := rfl

@[simp] lemma run_cons (m : Mode) (c : Char) (text : QString) :
    m.run (c :: text) = (m.step c).run text := rfl

lemma run_append (m : Mode) (s t : QString) : m.run (s ++ t) = (m.run s).run t :=
  List.foldl_append

lemma run_upTo_some {last : Char} {text : QString} {i : ℕ} (h : search [last] text = some i) :
    (upTo last).run text = code.run (text.drop (i + 1)) := by
  induction text generalizing i with
  | nil => simp [search] at h
  | cons c text ih =>
    by_cases hc : c = last
    · subst hc
      rw [search_eq_zero (show [c] <+: c :: text from ⟨text, rfl⟩), Option.some.injEq] at h
      subst h
      simp [step]
    · rw [search_cons_of_not fun h => hc (List.cons_prefix_cons.1 h).1.symm,
        Option.map_eq_some_iff] at h
      obtain ⟨j, hj, rfl⟩ := h
      simp [step, hc, ih hj]

lemma run_upTo_none {last : Char} {text : QString} (h : search [last] text = none) :
    (upTo last).run text = upTo last := by
  induction text with
  | nil => rfl
  | cons c text ih =>
    have hlast := search_singleton_eq_none_iff.1 h
    rw [List.mem_cons, not_or] at hlast
    simp [step, Ne.symm hlast.1, ih (search_singleton_eq_none_iff.2 hlast.2)]

lemma step_star {c : Char} (h : c ≠ '/') : star.step c = block.step c := by
  simp [step, h]

lemma search_block_cons {c : Char} {text : QString} (h : ¬ ['*', '/'] <+: c :: text) :
    search ['*', '/'] (c :: text) = (search ['*', '/'] text).map (· + 1) := search_cons_of_not h

lemma run_block_some {text : QString} {i : ℕ} (h : search ['*', '/'] text = some i) :
    block.run text = code.run (text.drop (i + 2)) := by
  induction text generalizing i with
  | nil => simp [search] at h
  | cons c text ih =>
    by_cases hend : ['*', '/'] <+: c :: text
    · rw [search_eq_zero hend, Option.some.injEq] at h
      subst h
      obtain ⟨rest, hrest⟩ := hend
      rw [← hrest]
      rfl
    · rw [search_block_cons hend, Option.map_eq_some_iff] at h
      obtain ⟨j, hj, rfl⟩ := h
      rw [run_cons, show j + 1 + 2 = j + 2 + 1 from rfl, List.drop_succ_cons, ← ih hj]
      cases text with
      | nil => simp [search] at hj
      | cons d text =>
        by_cases hc : c = '*'
        · subst hc
          have hd : d ≠ '/' := by
            rintro rfl
            exact hend ⟨text, rfl⟩
          exact congrArg (run · text) (step_star hd)
        · simp [step, hc]

lemma run_block_none {text : QString} (h : search ['*', '/'] text = none) :
    (block.run text).inside := by
  induction text with
  | nil => rfl
  | cons c text ih =>
    have hend : ¬ ['*', '/'] <+: c :: text := fun hp => by simp [search_eq_zero hp] at h
    rw [search_block_cons hend, Option.map_eq_none_iff] at h
    have hrest := ih h
    rw [run_cons]
    by_cases hc : c = '*'
    · subst hc
      cases text with
      | nil => rfl
      | cons d text =>
        have hd : d ≠ '/' := by
          rintro rfl
          exact hend ⟨text, rfl⟩
        exact (congrArg (fun m => (run m text).inside) (step_star hd)).trans hrest
    · simpa [step, hc] using hrest

end Mode

section Comment

variable {p q : QString}

lemma commentLoop_of_gt {content : QString} {pos idx : ℕ} (h : pos < idx) (turns : ℕ) :
    commentLoop content pos turns idx = true := by
  cases turns with
  | zero => exact decide_eq_true (by omega)
  | succ turns =>
    rw [commentLoop, if_neg (by omega)]
    exact decide_eq_true (by omega)

lemma behind_spec {needle : QString} {idx : ℕ} (hidx : idx ≤ p.length) :
    (∃ i, search needle (p.drop idx) = some i ∧
      behind needle (p ++ q) idx = some (idx + i + needle.length) ∧
      idx + i + needle.length ≤ p.length) ∨
    search needle (p.drop idx) = none ∧
      ∀ j, behind needle (p ++ q) idx = some j → p.length < j := by
  have hdrop : (p ++ q).drop idx = p.drop idx ++ q := List.drop_append_of_le_length hidx
  have hlen : (p.drop idx).length = p.length - idx := List.length_drop
  cases hs : search needle (p.drop idx) with
  | some i =>
    have hle := search_add_length_le hs
    exact .inl ⟨i, rfl, by rw [behind, hdrop, search_append hs]; rfl, by omega⟩
  | none =>
    refine .inr ⟨rfl, fun j hj => ?_⟩
    rw [behind, hdrop, Option.map_eq_some_iff] at hj
    obtain ⟨i, hi, rfl⟩ := hj
    obtain ⟨-, hpre, -⟩ := search_eq_some_iff.1 hi
    -- within the first part the needle would have been found
    by_contra hle
    have hpre' : needle <+: (p.drop idx).drop i := by
      rw [List.drop_append_of_le_length (by omega)] at hpre
      exact List.prefix_of_prefix_length_le hpre (List.prefix_append _ _)
        (by rw [List.length_drop]; omega)
    exact search_eq_none_iff.1 hs i (by omega) hpre'

variable {turns idx : ℕ} (ih : ∀ j, idx < j → j ≤ p.length →
  commentLoop (p ++ q) p.length turns j = (Mode.code.run (p.drop j)).inside)
include ih

lemma commentLoop_behind {needle : QString} {m : Mode} (hidx : idx < p.length)
    (hsome : ∀ i, search needle (p.drop (idx + 1)) = some i →
      m.run (p.drop (idx + 1)) = Mode.code.run ((p.drop (idx + 1)).drop (i + needle.length)))
    (hnone : search needle (p.drop (idx + 1)) = none → (m.run (p.drop (idx + 1))).inside) :
    ((behind needle (p ++ q) (idx + 1)).elim true
      fun j => commentLoop (p ++ q) p.length turns j) = (m.run (p.drop (idx + 1))).inside := by
  rcases @behind_spec p q needle (idx + 1) (by omega) with ⟨i, hs, hb, hle⟩ | ⟨hs, hb⟩
  · rw [hb, hsome i hs, List.drop_drop]
    simpa only [Option.elim, Nat.add_assoc] using ih (idx + 1 + i + needle.length) (by omega) hle
  · rw [hnone hs]
    cases hj : behind needle (p ++ q) (idx + 1) with
    | none => rfl
    | some j => exact commentLoop_of_gt (hb j hj) turns

lemma commentStep_spec (hq : ∀ d ∈ q.head?, d ≠ '/' ∧ d ≠ '*') {c : Char}
    (hc : p.drop idx = c :: p.drop (idx + 1)) (hidx : idx < p.length) :
    ((commentStep (p ++ q) idx c).elim true fun j => commentLoop (p ++ q) p.length turns j) =
      (Mode.code.run (p.drop idx)).inside := by
  have hdrop : (p ++ q).drop idx = c :: (p.drop (idx + 1) ++ q) := by
    rw [List.drop_append_of_le_length hidx.le, hc, List.cons_append]
  have hnext := ih (idx + 1) (by omega) (by omega)
  have hjump {last : Char} := @commentLoop_behind p q turns idx ih [last] (.upTo last) hidx
    (fun i hs => Mode.run_upTo_some hs) fun hs => by rw [Mode.run_upTo_none hs]; rfl
  have hlit : lit "/*" = ['/', '*'] ∧ lit "//" = ['/', '/'] ∧ lit "*/" = ['*', '/'] :=
    ⟨rfl, rfl, rfl⟩
  rw [hc, Mode.run_cons, commentStep, hdrop, hlit.1, hlit.2.1, hlit.2.2]
  by_cases hslash : c = '/'
  · subst hslash
    simp only [if_true]
    have hstep : Mode.code.step '/' = .slash := rfl
    rw [hstep]
    cases ha : p.drop (idx + 1) with
    | nil =>
      -- the slash is the last character in front of the position
      have hno : ∀ d, d = '/' ∨ d = '*' → ('/' :: ([] ++ q)).take 2 ≠ ['/', d] := by
        intro d hd h
        cases q with
        | nil => simp at h
        | cons e q =>
          have he := hq e rfl
          simp only [List.nil_append, List.take_succ_cons, List.take_zero, List.cons.injEq,
            and_true, true_and] at h
          rcases hd with rfl | rfl
          · exact he.1 h
          · exact he.2 h
      rw [if_neg (hno _ (.inr rfl)), if_neg (hno _ (.inl rfl))]
      rw [ha] at hnext
      exact hnext
    | cons e a =>
      have htake : ∀ d, ('/' :: (e :: a ++ q)).take 2 = ['/', d] ↔ e = d := by simp
      simp only [htake]
      by_cases hstar : e = '*'
      · subst hstar
        rw [if_pos rfl]
        have hblock := @commentLoop_behind p q turns idx ih ['*', '/'] .block hidx
          (fun i hs => Mode.run_block_some hs) Mode.run_block_none
        rw [ha] at hblock
        exact hblock
      · rw [if_neg hstar]
        by_cases hline : e = '/'
        · subst hline
          rw [if_pos rfl, @hjump '\n', ha]
          rfl
        · rw [if_neg hline]
          rw [ha] at hnext
          have hcode : Mode.slash.step e = Mode.code.step e := by simp [Mode.step, hstar, hline]
          rw [Mode.run_cons, hcode]
          exact hnext
  · rw [if_neg hslash]
    by_cases hquote : c = '"'
    · subst hquote
      exact hjump
    · rw [if_neg hquote]
      by_cases happ : c = '\''
      · subst happ
        exact hjump
      · rw [if_neg happ]
        have hcode : Mode.code.step c = .code := by
          simp [Mode.step, Mode.ofCode, hslash, hquote, happ]
        rw [hcode]
        exact hnext

omit ih in
lemma commentLoop_spec (hq : ∀ d ∈ q.head?, d ≠ '/' ∧ d ≠ '*') (turns : ℕ) {idx : ℕ}
    (hidx : idx ≤ p.length) (hturns : p.length ≤ idx + turns) :
    commentLoop (p ++ q) p.length turns idx = (Mode.code.run (p.drop idx)).inside := by
  have hend : p.drop p.length = [] := List.drop_length
  induction turns generalizing idx with
  | zero =>
    obtain rfl : idx = p.length := by omega
    rw [hend]
    simp [commentLoop, Mode.inside]
  | succ turns ih =>
    rw [commentLoop]
    rcases Nat.lt_or_ge idx p.length with h | h
    · have hc : p.drop idx = p[idx] :: p.drop (idx + 1) := List.drop_eq_getElem_cons h
      have hget : (p ++ q)[idx]? = some p[idx] := by
        rw [List.getElem?_append_left h, List.getElem?_eq_getElem h]
      have hstep : ((commentStep (p ++ q) idx p[idx]).elim true fun j =>
          commentLoop (p ++ q) p.length turns j) = (Mode.code.run (p.drop idx)).inside :=
        commentStep_spec (fun j hj hle => ih hle (by omega)) hq hc h
      rw [if_pos h, hget, ← hstep]
      cases hb : commentStep (p ++ q) idx p[idx] <;> simp [hb]
    · obtain rfl : idx = p.length := by omega
      rw [hend, if_neg (by omega)]
      simp [Mode.inside]

omit ih in
/-- **The comment positions are those where the machine is inside**, in front of a text that does
not begin with a slash or a star. -/
lemma isCommentPosition_eq (hq : ∀ d ∈ q.head?, d ≠ '/' ∧ d ≠ '*') (hne : q ≠ []) :
    isCommentPosition (p ++ q) p.length = (Mode.code.run p).inside := by
  have hlen : 0 < q.length := List.length_pos_of_ne_nil hne
  rw [isCommentPosition, if_neg (by rw [List.length_append]; omega),
    commentLoop_spec hq p.length (Nat.zero_le _) (by omega), List.drop_zero]

end Comment

/-! ### The files a text requires -/

lemma expect_some {f : Char → Bool} {text rest : QString} (h : expect f text = some rest) :
    rest.length < text.length := by
  cases text with
  | nil => simp [expect] at h
  | cons c text =>
    rw [expect] at h
    split at h
    · obtain rfl := Option.some.inj h
      simp
    · simp at h

lemma length_dropWhile_le (f : Char → Bool) (text : QString) :
    (text.dropWhile f).length ≤ text.length := (List.dropWhile_sublist f).length_le

lemma matchRequire_some {text : QString} {m : Match} (h : matchRequire text = some m) :
    m.skip = 0 ∧ 0 < m.length ∧ m.length ≤ text.length ∧ text.head? = some 'r' := by
  simp only [matchRequire, Option.bind_eq_bind, Option.bind_eq_some_iff, Option.guard_eq_some',
    Option.pure_def, Option.some.injEq] at h
  obtain ⟨-, hname, r₁, h₁, r₂, h₂, -, -, r₃, h₃, r₄, h₄, rfl⟩ := h
  have := expect_some h₁
  have := expect_some h₂
  have := expect_some h₃
  have := expect_some h₄
  have := length_dropWhile_le isSpace r₁
  have := length_dropWhile_le isModuleChar r₂
  have := length_dropWhile_le isSpace r₃
  have := length_dropWhile_le isSpace (text.drop 7)
  have : (text.drop 7).length ≤ text.length := by simp
  obtain ⟨rest, hrest⟩ := List.isPrefixOf_iff_prefix.1 hname
  refine ⟨rfl, by dsimp only; omega, by dsimp only; omega, ?_⟩
  rw [← hrest]
  rfl

lemma findRequire_some {text : QString} {m : Match} (h : findRequire text = some m) :
    0 < m.length ∧ m.skip + m.length ≤ text.length ∧ (text.drop m.skip).head? = some 'r' := by
  induction text generalizing m with
  | nil => simp [findRequire] at h
  | cons c text ih =>
    rw [findRequire] at h
    cases hm : matchRequire (c :: text) with
    | some m' =>
      rw [hm] at h
      obtain rfl := Option.some.inj h
      obtain ⟨hskip, hpos, hle, hhead⟩ := matchRequire_some hm
      rw [hskip]
      exact ⟨hpos, by omega, hhead⟩
    | none =>
      rw [hm] at h
      obtain ⟨m', hm', rfl⟩ := Option.map_eq_some_iff.1 h
      obtain ⟨hpos, hle, hhead⟩ := ih hm'
      exact ⟨hpos, by simp only [List.length_cons]; omega, hhead⟩

/-- The files that a text in this mode requires, in turn. Behind a call that is replaced the text is
code, the variable having no slash or quote. -/
def references (dir : QString) (mode : Mode) (text : QString) : List QString :=
  match h : findRequire text with
  | none => []
  | some m =>
    have _ := findRequire_some h
    let mode := mode.run (text.take m.skip)
    let matched := (text.drop m.skip).take m.length
    if mode.inside then references dir (mode.run matched) (text.drop (m.skip + m.length))
    else
      let filePath := absolutePath fs loader m.module dir .default
      if filePath.isEmpty then references dir (mode.step 'r') (text.drop (m.skip + 1))
      else filePath :: references dir .code (text.drop (m.skip + m.length))
termination_by text.length
decreasing_by all_goals simp only [List.length_drop]; omega

/-- A file that is loaded, or is not empty and requires such files only. -/
inductive Good (loaded : QString → Prop) : QString → Prop where
  | loaded {f : QString} (h : loaded f) : Good loaded f
  | file {f : QString} (h : read fs f ≠ [])
      (hrefs : ∀ g ∈ references fs loader (fs.dir f) .code (read fs f), Good loaded g) :
      Good loaded f

section References

variable {dir : QString} {mode : Mode} {text : QString} {m : Match}
  (hm : findRequire text = some m)

lemma references_none (h : findRequire text = none) : references fs loader dir mode text = [] := by
  rw [references]
  split
  · rfl
  · simp_all

include hm

lemma references_comment (h : (mode.run (text.take m.skip)).inside) :
    references fs loader dir mode text =
      references fs loader dir ((mode.run (text.take m.skip)).run
        ((text.drop m.skip).take m.length)) (text.drop (m.skip + m.length)) := by
  rw [references]
  split
  · simp_all
  · obtain rfl := Option.some.inj (hm.symm.trans ‹_›)
    rw [if_pos h]

lemma references_unresolved (h : ¬ (mode.run (text.take m.skip)).inside)
    (hpath : (absolutePath fs loader m.module dir .default).isEmpty) :
    references fs loader dir mode text =
      references fs loader dir ((mode.run (text.take m.skip)).step 'r')
        (text.drop (m.skip + 1)) := by
  rw [references]
  split
  · simp_all
  · obtain rfl := Option.some.inj (hm.symm.trans ‹_›)
    rw [if_neg h, if_pos hpath]

lemma references_resolved (h : ¬ (mode.run (text.take m.skip)).inside)
    (hpath : ¬ (absolutePath fs loader m.module dir .default).isEmpty) :
    references fs loader dir mode text =
      absolutePath fs loader m.module dir .default ::
        references fs loader dir .code (text.drop (m.skip + m.length)) := by
  rw [references]
  split
  · simp_all
  · obtain rfl := Option.some.inj (hm.symm.trans ‹_›)
    rw [if_neg h, if_neg hpath]

end References

/-! ### One turn -/

lemma Mode.run_name {mode : Mode} (h : ¬ mode.inside) (name : VarName) :
    mode.run name.val = .code := by
  obtain ⟨text, hne, hall⟩ := name
  have hchar : ∀ c, isVarChar c → c ≠ '/' ∧ c ≠ '"' ∧ c ≠ '\'' ∧ c ≠ '*' := by
    intro c hc
    refine ⟨?_, ?_, ?_, ?_⟩ <;> rintro rfl <;> exact absurd hc (by decide)
  have hstep : ∀ m : Mode, ¬ m.inside → ∀ c, isVarChar c → m.step c = .code := by
    intro m hm c hc
    obtain ⟨h₁, h₂, h₃, h₄⟩ := hchar c hc
    cases m <;> simp_all [inside, step, ofCode]
  have hcode : ∀ t : QString, t.all isVarChar → Mode.code.run t = .code := by
    intro t ht
    induction t with
    | nil => rfl
    | cons c t ih =>
      rw [List.all_cons, Bool.and_eq_true] at ht
      rw [run_cons, hstep .code (by decide) c ht.1, ih ht.2]
  cases text with
  | nil => exact absurd rfl hne
  | cons c text =>
    rw [List.all_cons, Bool.and_eq_true] at hall
    rw [run_cons, hstep mode h c hall.1, hcode text hall.2]

section View

variable {content : QString} {pos : ℕ} {m : Match} (hm : findRequire (content.drop pos) = some m)
include hm

lemma match_le : pos + m.skip + m.length ≤ content.length := by
  obtain ⟨hpos, hle, -⟩ := findRequire_some hm
  rw [List.length_drop] at hle
  omega

omit hm in
lemma run_take_match : Mode.code.run (content.take (pos + m.skip)) =
    (Mode.code.run (content.take pos)).run ((content.drop pos).take m.skip) := by
  rw [List.take_add, Mode.run_append]

lemma isCommentPosition_match : isCommentPosition content (pos + m.skip) =
    ((Mode.code.run (content.take pos)).run ((content.drop pos).take m.skip)).inside := by
  obtain ⟨hpos, -, hhead⟩ := findRequire_some hm
  have hle := match_le hm
  have hlen : (content.take (pos + m.skip)).length = pos + m.skip := by
    rw [List.length_take]
    omega
  rw [List.drop_drop] at hhead
  have h := @isCommentPosition_eq (content.take (pos + m.skip)) (content.drop (pos + m.skip))
    (fun d hd => by
      rw [hhead] at hd
      obtain rfl := Option.mem_some_iff.1 hd
      decide)
    (fun hnil => by rw [hnil] at hhead; simp at hhead)
  rwa [List.take_append_drop, hlen, run_take_match] at h

omit hm in
lemma run_take_matched : Mode.code.run (content.take (pos + m.skip + m.length)) =
    ((Mode.code.run (content.take pos)).run ((content.drop pos).take m.skip)).run
      (((content.drop pos).drop m.skip).take m.length) := by
  rw [List.take_add, Mode.run_append, run_take_match, List.drop_drop]

lemma run_take_next : Mode.code.run (content.take (pos + m.skip + 1)) =
    ((Mode.code.run (content.take pos)).run ((content.drop pos).take m.skip)).step 'r' := by
  obtain ⟨-, -, hhead⟩ := findRequire_some hm
  have htake : (content.drop (pos + m.skip)).take 1 = ['r'] := by
    rw [List.drop_drop] at hhead
    cases hdrop : content.drop (pos + m.skip) with
    | nil => simp [hdrop] at hhead
    | cons c rest =>
      rw [hdrop] at hhead
      obtain rfl := Option.some.inj hhead
      rfl
  rw [List.take_add, Mode.run_append, run_take_match, htake]
  rfl

lemma run_take_replace
    (h : ¬ ((Mode.code.run (content.take pos)).run ((content.drop pos).take m.skip)).inside)
    (name : VarName) :
    Mode.code.run ((replace content (pos + m.skip) m.length name).take
      (pos + m.skip + name.val.length)) = .code := by
  have hle := match_le hm
  have hlen : (content.take (pos + m.skip) ++ name.val).length =
      pos + m.skip + name.val.length := by
    rw [List.length_append, List.length_take]
    omega
  rw [replace, ← hlen, List.take_left, Mode.run_append, run_take_match, Mode.run_name h]

lemma drop_replace (name : VarName) :
    (replace content (pos + m.skip) m.length name).drop (pos + m.skip + name.val.length) =
      (content.drop pos).drop (m.skip + m.length) := by
  have hle := match_le hm
  have hlen : (content.take (pos + m.skip) ++ name.val).length =
      pos + m.skip + name.val.length := by
    rw [List.length_append, List.length_take]
    omega
  rw [replace, ← hlen, List.drop_left, List.drop_drop, Nat.add_assoc]

end View

lemma replace_ne_nil (content : QString) (pos length : ℕ) (name : VarName) :
    replace content pos length name ≠ [] := by
  simp [replace, name.2.1]

section Turn

variable {fs loader rt} {checksum : ℕ} {dir : QString} {fuel : ℕ} {context : TJSModule E}
  {content : QString} {pos : ℕ} {m : Match}

lemma replaceLoop_none (h : findRequire (content.drop pos) = none) :
    replaceLoop fs loader rt checksum dir (fuel + 1) context content pos =
      some (content, context) := by
  rw [replaceLoop, h]

variable (hm : findRequire (content.drop pos) = some m)
include hm

lemma replaceLoop_comment (h : isCommentPosition content (pos + m.skip)) :
    replaceLoop fs loader rt checksum dir (fuel + 1) context content pos =
      replaceLoop fs loader rt checksum dir fuel context content
        (pos + m.skip + m.length) := by
  rw [replaceLoop, hm]
  simp only [if_pos h]

variable (hcode : ¬ isCommentPosition content (pos + m.skip))
include hcode

lemma replaceLoop_unresolved (h : (absolutePath fs loader m.module dir .default).isEmpty) :
    replaceLoop fs loader rt checksum dir (fuel + 1) context content pos =
      replaceLoop fs loader rt checksum dir fuel context content (pos + m.skip + 1) := by
  rw [replaceLoop, hm]
  simp only [if_neg hcode, if_pos h]

variable (hpath : ¬ (absolutePath fs loader m.module dir .default).isEmpty)
include hpath

lemma replaceLoop_loaded {name : VarName}
    (h : context.loadedFiles (absolutePath fs loader m.module dir .default) = some name) :
    replaceLoop fs loader rt checksum dir (fuel + 1) context content pos =
      replaceLoop fs loader rt checksum dir fuel context
        (replace content (pos + m.skip) m.length name) (pos + m.skip + name.val.length) := by
  rw [replaceLoop, hm]
  simp only [if_neg hcode, if_neg hpath, h]

variable (hload : context.loadedFiles (absolutePath fs loader m.module dir .default) = none)
include hload

/-- An empty file is asked for again. -/
lemma replaceLoop_empty
    (h : read fs (absolutePath fs loader m.module dir .default) = []) :
    replaceLoop fs loader rt checksum dir (fuel + 1) context content pos =
      replaceLoop fs loader rt checksum dir fuel context content (pos + m.skip) := by
  rw [replaceLoop, hm]
  simp only [if_neg hcode, if_neg hpath, hload, h, List.isEmpty_nil, if_true]

lemma replaceLoop_required
    (h : read fs (absolutePath fs loader m.module dir .default) ≠ []) :
    replaceLoop fs loader rt checksum dir (fuel + 1) context content pos =
      let path := absolutePath fs loader m.module dir .default
      (replaceLoop fs loader rt (rt.qChecksum (read fs path)) (fs.dir path) fuel context
        (read fs path) 0).bind fun res =>
          if res.1.isEmpty then
            replaceLoop fs loader rt checksum dir fuel res.2 content (pos + m.skip)
          else
            let name := varName (rt.rand32 res.2.randoms) checksum (pos + m.skip)
            replaceLoop fs loader rt checksum dir fuel
              (load rt res.2 m.module path res.1 name)
              (replace content (pos + m.skip) m.length name) (pos + m.skip + name.val.length) := by
  have hne : (read fs (absolutePath fs loader m.module dir .default)).isEmpty = false := by
    simpa using h
  rw [replaceLoop, hm]
  simp only [if_neg hcode, if_neg hpath, hload, hne, Bool.false_eq_true, if_false]
  cases replaceLoop fs loader rt _ _ fuel context
    (read fs (absolutePath fs loader m.module dir .default)) 0 <;> rfl

omit hm hcode hpath hload

lemma replaceLoop_ne_nil {res : QString × TJSModule E} (hne : content ≠ [])
    (h : replaceLoop fs loader rt checksum dir fuel context content pos = some res) :
    res.1 ≠ [] := by
  induction fuel generalizing context content pos with
  | zero => simp [replaceLoop] at h
  | succ fuel ih =>
    cases hm : findRequire (content.drop pos) with
    | none =>
      rw [replaceLoop_none hm, Option.some.injEq] at h
      rwa [← h]
    | some m =>
      by_cases hcode : isCommentPosition content (pos + m.skip)
      · exact ih hne (replaceLoop_comment hm hcode ▸ h)
      by_cases hpath : (absolutePath fs loader m.module dir .default).isEmpty
      · exact ih hne (replaceLoop_unresolved hm hcode hpath ▸ h)
      cases hload : context.loadedFiles (absolutePath fs loader m.module dir .default) with
      | some name =>
        exact ih (replace_ne_nil _ _ _ name) (replaceLoop_loaded hm hcode hpath hload ▸ h)
      | none =>
        by_cases hread : read fs (absolutePath fs loader m.module dir .default) = []
        · exact ih hne (replaceLoop_empty hm hcode hpath hload hread ▸ h)
        · rw [replaceLoop_required hm hcode hpath hload hread, Option.bind_eq_some_iff] at h
          obtain ⟨inner, -, h⟩ := h
          split at h
          · exact ih hne h
          · exact ih (replace_ne_nil _ _ _ _) h

lemma replaceLoop_succ {res : QString × TJSModule E}
    (h : replaceLoop fs loader rt checksum dir fuel context content pos = some res) :
    replaceLoop fs loader rt checksum dir (fuel + 1) context content pos = some res := by
  induction fuel generalizing checksum dir context content pos res with
  | zero => simp [replaceLoop] at h
  | succ fuel ih =>
    cases hm : findRequire (content.drop pos) with
    | none => rwa [replaceLoop_none hm] at h ⊢
    | some m =>
      by_cases hcode : isCommentPosition content (pos + m.skip)
      · rw [replaceLoop_comment hm hcode] at h ⊢
        exact ih h
      by_cases hpath : (absolutePath fs loader m.module dir .default).isEmpty
      · rw [replaceLoop_unresolved hm hcode hpath] at h ⊢
        exact ih h
      cases hload : context.loadedFiles (absolutePath fs loader m.module dir .default) with
      | some name =>
        rw [replaceLoop_loaded hm hcode hpath hload] at h ⊢
        exact ih h
      | none =>
        by_cases hread : read fs (absolutePath fs loader m.module dir .default) = []
        · rw [replaceLoop_empty hm hcode hpath hload hread] at h ⊢
          exact ih h
        · rw [replaceLoop_required hm hcode hpath hload hread, Option.bind_eq_some_iff] at h ⊢
          obtain ⟨inner, hinner, h⟩ := h
          refine ⟨inner, ih hinner, ?_⟩
          split at h
          · rw [if_pos ‹_›]
            exact ih h
          · rw [if_neg ‹_›]
            exact ih h

lemma replaceLoop_mono {fuel' : ℕ} (hle : fuel ≤ fuel') {res : QString × TJSModule E}
    (h : replaceLoop fs loader rt checksum dir fuel context content pos = some res) :
    replaceLoop fs loader rt checksum dir fuel' context content pos = some res := by
  induction hle with
  | refl => exact h
  | step _ ih => exact replaceLoop_succ ih

end Turn

/-! ### When the loop ends -/

lemma findRequire_drop {text : QString} {m : Match} (h : findRequire text = some m) :
    findRequire (text.drop m.skip) = some { m with skip := 0 } := by
  induction text generalizing m with
  | nil => simp [findRequire] at h
  | cons c text ih =>
    have hfind := h
    rw [findRequire] at h
    cases hm : matchRequire (c :: text) with
    | some m' =>
      rw [hm] at h
      obtain rfl := Option.some.inj h
      have hskip := (matchRequire_some hm).1
      rw [hskip, List.drop_zero, hfind]
      simp [← hskip]
    | none =>
      rw [hm] at h
      obtain ⟨m', hm', rfl⟩ := Option.map_eq_some_iff.1 h
      exact ih hm'

section Termination

variable {fs loader rt} {L : QString → Prop}

/-- The files that a position in a text requires. -/
def ahead (fs : FileSystem) (loader : TJSLoader) (dir content : QString) (pos : ℕ) :
    List QString :=
  references fs loader dir (Mode.code.run (content.take pos)) (content.drop pos)

/-- The names that are loaded are those of good files. -/
def Sound (fs : FileSystem) (loader : TJSLoader) (L : QString → Prop) (context : TJSModule E) :
    Prop :=
  ∀ f, (context.loadedFiles f).isSome → Good fs loader L f

lemma load_sound {context : TJSModule E} (h : Sound fs loader L context) {path : QString}
    (hpath : Good fs loader L path) (module require : QString) (name : VarName) :
    Sound fs loader L (load rt context module path require name) := by
  intro f hf
  simp only [load] at hf
  split_ifs at hf with herror
  · exact h f hf
  · by_cases hfile : f = path
    · rw [hfile]
      exact hpath
    · rw [Function.update_of_ne hfile] at hf
      exact h f hf

/-- **A loop that ends** has asked for good files only. -/
lemma good_of_replaceLoop {fuel : ℕ} {checksum : ℕ} {dir : QString} {context : TJSModule E}
    {content : QString} {pos : ℕ} {res : QString × TJSModule E}
    (hsound : Sound fs loader L context)
    (h : replaceLoop fs loader rt checksum dir fuel context content pos = some res) :
    (∀ f ∈ ahead fs loader dir content pos, Good fs loader L f) ∧ Sound fs loader L res.2 := by
  induction fuel generalizing checksum dir context content pos res with
  | zero => simp [replaceLoop] at h
  | succ fuel ih =>
    rw [ahead]
    cases hm : findRequire (content.drop pos) with
    | none =>
      rw [replaceLoop_none hm, Option.some.injEq] at h
      rw [references_none fs loader hm, ← h]
      exact ⟨by simp, hsound⟩
    | some m =>
      by_cases hcomment : isCommentPosition content (pos + m.skip)
      · rw [replaceLoop_comment hm hcomment] at h
        rw [isCommentPosition_match hm] at hcomment
        rw [references_comment fs loader hm hcomment, ← run_take_matched, List.drop_drop,
          ← Nat.add_assoc]
        exact ih hsound h
      have hcode := hcomment
      rw [isCommentPosition_match hm] at hcode
      by_cases hpath : (absolutePath fs loader m.module dir .default).isEmpty
      · rw [replaceLoop_unresolved hm hcomment hpath] at h
        rw [references_unresolved fs loader hm hcode hpath, ← run_take_next hm, List.drop_drop,
          ← Nat.add_assoc]
        exact ih hsound h
      have hahead (name : VarName) : ahead fs loader dir (replace content (pos + m.skip) m.length
          name) (pos + m.skip + name.val.length) =
            references fs loader dir .code ((content.drop pos).drop (m.skip + m.length)) := by
        rw [ahead, run_take_replace hm hcode, drop_replace hm]
      have hrefs := references_resolved fs loader hm hcode hpath
      rw [hrefs]
      set path := absolutePath fs loader m.module dir .default with hpath_eq
      -- a good file in front, and the rest
      suffices hrest : Good fs loader L path ∧
          (∀ f ∈ references fs loader dir .code ((content.drop pos).drop (m.skip + m.length)),
            Good fs loader L f) ∧ Sound fs loader L res.2 from
        ⟨List.forall_mem_cons.2 ⟨hrest.1, hrest.2.1⟩, hrest.2.2⟩
      cases hload : context.loadedFiles path with
      | some name =>
        rw [replaceLoop_loaded hm hcomment hpath hload] at h
        have hgood : Good fs loader L path := hsound path (by rw [hload]; rfl)
        exact ⟨hgood, hahead name ▸ ih hsound h⟩
      | none =>
        by_cases hempty : read fs path = []
        · -- the file is asked for again, with one turn less
          rw [replaceLoop_empty hm hcomment hpath hload hempty] at h
          obtain ⟨hgood, hsound⟩ := ih hsound h
          have hagain := findRequire_drop hm
          rw [List.drop_drop] at hagain
          rw [ahead, run_take_match, references_resolved fs loader hagain (by simpa using hcode)
            hpath, List.forall_mem_cons, List.drop_drop, Nat.zero_add, Nat.add_assoc] at hgood
          rw [List.drop_drop]
          exact ⟨hgood.1, hgood.2, hsound⟩
        · rw [replaceLoop_required hm hcomment hpath hload hempty, Option.bind_eq_some_iff] at h
          obtain ⟨inner, hinner, h⟩ := h
          obtain ⟨hfiles, hsound⟩ := ih hsound hinner
          have hgood : Good fs loader L path := .file hempty hfiles
          split at h
          · exact absurd (List.isEmpty_iff.1 ‹_›) (replaceLoop_ne_nil hempty hinner)
          · obtain ⟨hrest, hsound⟩ := ih (load_sound hsound hgood _ _ _) h
            rw [hahead] at hrest
            exact ⟨hgood, hrest, hsound⟩

/-- The files of `L` are loaded. -/
def Has (L : QString → Prop) (context : TJSModule E) : Prop :=
  ∀ f, L f → (context.loadedFiles f).isSome

lemma load_has {context : TJSModule E} (h : Has L context) (module path require : QString)
    (name : VarName) : Has L (load rt context module path require name) := by
  intro f hf
  simp only [load]
  split_ifs with herror
  · exact h f hf
  · by_cases hfile : f = path
    · rw [hfile, Function.update_self]
      rfl
    · rw [Function.update_of_ne hfile]
      exact h f hf

/-- A file that is loaded, or that can be. -/
def Loads (fs : FileSystem) (loader : TJSLoader) (rt : Runtime E) (L : QString → Prop)
    (f : QString) : Prop :=
  ∀ context : TJSModule E, Has L context → (context.loadedFiles f).isSome ∨
    read fs f ≠ [] ∧ ∃ fuel res,
      replaceLoop fs loader rt (rt.qChecksum (read fs f)) (fs.dir f) fuel context (read fs f) 0 =
        some res ∧ Has L res.2

/-- **A loop ends if all files ahead can be loaded.** Every turn leaves less of the text. -/
lemma replaceLoop_ends (checksum : ℕ) {dir : QString} {context : TJSModule E} {content : QString}
    {pos : ℕ} (hfiles : ∀ f ∈ ahead fs loader dir content pos, Loads fs loader rt L f)
    (hhas : Has L context) :
    ∃ fuel res, replaceLoop fs loader rt checksum dir fuel context content pos = some res ∧
      Has L res.2 := by
  induction hn : (content.drop pos).length using Nat.strong_induction_on
    generalizing context content pos with
  | _ n ih =>
  cases hm : findRequire (content.drop pos) with
  | none => exact ⟨1, _, replaceLoop_none hm, hhas⟩
  | some m =>
    obtain ⟨hpos, hle, -⟩ := findRequire_some hm
    rw [List.length_drop] at hle hn
    have hdrop : ((content.drop pos).drop (m.skip + m.length)).length < n := by
      rw [List.length_drop, List.length_drop]
      omega
    by_cases hcomment : isCommentPosition content (pos + m.skip)
    · have hcode := hcomment
      rw [isCommentPosition_match hm] at hcode
      rw [ahead, references_comment fs loader hm hcode, ← run_take_matched, List.drop_drop,
        ← Nat.add_assoc] at hfiles
      rw [List.drop_drop, ← Nat.add_assoc] at hdrop
      obtain ⟨fuel, res, hres, hhas⟩ := ih _ hdrop hfiles hhas rfl
      exact ⟨fuel + 1, res, by rw [replaceLoop_comment hm hcomment, hres], hhas⟩
    have hcode := hcomment
    rw [isCommentPosition_match hm] at hcode
    by_cases hpath : (absolutePath fs loader m.module dir .default).isEmpty
    · rw [ahead, references_unresolved fs loader hm hcode hpath, ← run_take_next hm,
        List.drop_drop, ← Nat.add_assoc] at hfiles
      obtain ⟨fuel, res, hres, hhas⟩ := ih (content.drop (pos + m.skip + 1)).length
        (by rw [List.length_drop]; omega) hfiles hhas rfl
      exact ⟨fuel + 1, res, by rw [replaceLoop_unresolved hm hcomment hpath, hres], hhas⟩
    rw [ahead, references_resolved fs loader hm hcode hpath, List.forall_mem_cons] at hfiles
    obtain ⟨hfile, hrest⟩ := hfiles
    -- behind the replaced call
    have hnext (name : VarName) {context : TJSModule E} (hhas : Has L context) :
        ∃ fuel res, replaceLoop fs loader rt checksum dir fuel context
          (replace content (pos + m.skip) m.length name) (pos + m.skip + name.val.length) =
            some res ∧ Has L res.2 := by
      refine ih _ hdrop ?_ hhas (by rw [drop_replace hm])
      rwa [ahead, run_take_replace hm hcode, drop_replace hm]
    cases hload : context.loadedFiles (absolutePath fs loader m.module dir .default) with
    | some name =>
      obtain ⟨fuel, res, hres, hhas⟩ := hnext name hhas
      exact ⟨fuel + 1, res, by rw [replaceLoop_loaded hm hcomment hpath hload, hres], hhas⟩
    | none =>
      rcases hfile context hhas with hsome | ⟨hread, fuel₁, inner, hinner, hhas⟩
      · rw [hload] at hsome
        exact absurd hsome (by decide)
      · have hne : inner.1.isEmpty = false := by
          simpa using replaceLoop_ne_nil hread hinner
        set name := varName (rt.rand32 inner.2.randoms) checksum (pos + m.skip) with hname
        obtain ⟨fuel₂, res, hres, hhas⟩ := hnext name (load_has hhas m.module
          (absolutePath fs loader m.module dir .default) inner.1 name)
        refine ⟨max fuel₁ fuel₂ + 1, res, ?_, hhas⟩
        rw [replaceLoop_required hm hcomment hpath hload hread]
        simp only [replaceLoop_mono (le_max_left fuel₁ fuel₂) hinner, Option.bind_some, hne,
          Bool.false_eq_true, if_false, ← hname]
        exact replaceLoop_mono (le_max_right ..) hres

lemma loads_of_good {f : QString} (h : Good fs loader L f) : Loads fs loader rt L f := by
  induction h with
  | loaded h => exact fun context hhas => .inl (hhas _ h)
  | file hread _ ih => exact fun context hhas => .inr ⟨hread, replaceLoop_ends _ ih hhas⟩

end Termination

/-- **The expansion ends** exactly if the text requires good files only: files that are loaded
already, or that are not empty and require good files only, so that no chain of requirements comes
to an empty or unreadable file, or back to itself. -/
theorem replaceRequire_terminates_iff (context : TJSModule E) (content dir : QString) :
    Terminates fs loader rt context content dir ↔
      ∀ f ∈ references fs loader dir .code content,
        Good fs loader (fun f => (context.loadedFiles f).isSome) f := by
  set L : QString → Prop := fun f => (context.loadedFiles f).isSome with hL
  by_cases hempty : content = []
  · subst hempty
    rw [references_none fs loader (by rfl)]
    exact iff_of_true ⟨0, rfl⟩ (by simp)
  · have hne : content.isEmpty = false := by simpa using hempty
    have hstart : ahead fs loader dir content 0 = references fs loader dir .code content := rfl
    simp only [Terminates, replaceRequire, hne, Bool.false_eq_true, if_false]
    rw [← hstart]
    constructor
    · rintro ⟨fuel, hsome⟩
      obtain ⟨res, hres⟩ := Option.isSome_iff_exists.1 hsome
      exact (good_of_replaceLoop (fun f hf => .loaded hf) hres).1
    · intro hgood
      obtain ⟨fuel, res, hres, -⟩ := replaceLoop_ends (rt.qChecksum content)
        (fun f hf => loads_of_good (hgood f hf)) (fun f hf => hf)
      exact ⟨fuel, by rw [hres]; rfl⟩

/-- A file system without links and packages. -/
def plainFiles (content : QString → Option QString) : FileSystem where
  isAbsolute := fun name => name.head? = some '/'
  suffix := fun name => (name.reverse.takeWhile (· ≠ '.')).reverse
  absoluteFilePath := fun dir name => dir ++ '/' :: name
  filePath := fun dir name => dir ++ '/' :: name
  dir := fun path => ((path.reverse.dropWhile (· ≠ '/')).drop 1).reverse
  fileExists := fun path => (content path).isSome
  canonicalFilePath := fun path => if (content path).isSome then path else []
  packageMain := fun _ => []
  readAll := content

def emptyFile : FileSystem := plainFiles fun path => if path = lit "/a.js" then some [] else none

/-- A runtime in which every script is evaluated. -/
def quiet : Runtime Unit := ⟨fun e _ _ => (e, false), fun _ => 0, fun _ => 0⟩

/-- A script that requires an empty file is never done. -/
theorem replaceRequire_emptyFile :
    ¬ Terminates emptyFile ⟨.default, [], []⟩ quiet ⟨(), fun _ => none, 0⟩
      (lit "require('/a.js')") [] := by
  rintro ⟨fuel, hsome⟩
  have hfind : findRequire ((lit "require('/a.js')").drop 0) = some ⟨0, 16, lit "/a.js"⟩ := rfl
  have hnone : ∀ fuel, replaceLoop emptyFile ⟨.default, [], []⟩ quiet 0 [] fuel
      ⟨(), fun _ => none, 0⟩ (lit "require('/a.js')") 0 = none := by
    intro fuel
    induction fuel with
    | zero => rfl
    | succ fuel ih =>
      exact (replaceLoop_empty hfind (by decide) (by decide) rfl (by decide)).trans ih
  have hloop := hnone fuel
  simp only [replaceRequire] at hsome
  rw [if_neg (by decide)] at hsome
  exact absurd (hsome.symm.trans (congrArg Option.isSome hloop)) (by decide)

end TreeFrog.JSLoader
