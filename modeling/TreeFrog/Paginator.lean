import Mathlib.Algebra.BigOperators.Group.List.Basic
import Mathlib.Algebra.Order.Field.Rat
import Mathlib.Data.Rat.Floor
import Mathlib.Tactic.Linarith
import Mathlib.Tactic.Ring

/-!
`TPaginator`: five numbers that the constructor and the setters clamp and compute anew.

Every `int` computation is checked: it is none where C++ leaves the overflow undefined. The setters,
`offset()` and `itemCountOfCurrentPage()` never get there, `nextPage()` and `range()` do at the
upper end of the numbers.
-/

namespace TreeFrog.Paginator

/-! ### Computations in `int` -/

/-- The result of an `int` computation; none where it does not fit. -/
def int (n : ℤ) : Option ℤ := if -2 ^ 31 ≤ n ∧ n < 2 ^ 31 then some n else none

lemma int_of_fits {n : ℤ} (h₀ : -2 ^ 31 ≤ n) (h₁ : n < 2 ^ 31) : int n = some n := if_pos ⟨h₀, h₁⟩

lemma int_of_ge {n : ℤ} (h : 2 ^ 31 ≤ n) : int n = none := if_neg fun h' => by omega

/-- `n` turns of a loop that appends its counter; the counter is incremented at the end of each. -/
def countUp (i : ℤ) : ℕ → Option (List ℤ)
  | 0 => some []
  | n + 1 => do
    let next ← int (i + 1)
    return i :: (← countUp next n)

/-- `for (int i = start; i <= end; ++i) ret << i;` -/
def numbers (start stop : ℤ) : Option (List ℤ) := countUp start (stop + 1 - start).toNat

/-! ### The paginator -/

structure TPaginator where
  itemsTotal : ℤ
  itemsPerPage : ℤ
  midRange : ℤ
  numPages : ℤ
  currentPage : ℤ
  deriving DecidableEq, Repr

namespace TPaginator

variable (p : TPaginator)

def hasPage (page : ℤ) : Bool := page > 0 && page ≤ p.numPages

/-- `midRange` must be an odd number. -/
def oddRange (midRange : ℤ) : Option ℤ :=
  if midRange.tmod 2 ≠ 0 then some midRange else int (midRange + 1)

/-- The division is one of doubles, which is exact enough for `ceil` to be that of the quotient. -/
def calculateNumPages : Option TPaginator := do
  let itemsTotal := max p.itemsTotal 0
  let itemsPerPage := max p.itemsPerPage 1
  let midRange ← oddRange (max p.midRange 1)
  let pages ← int ⌈(itemsTotal / itemsPerPage : ℚ)⌉
  let p := TPaginator.mk itemsTotal itemsPerPage midRange (max pages 1) p.currentPage
  return { p with currentPage := if p.hasPage p.currentPage then p.currentPage else 1 }

/-- The constructor; the members that it does not set have their initial values. -/
def create (itemsTotal itemsPerPage midRange : Int32) : Option TPaginator :=
  (TPaginator.mk itemsTotal.toInt itemsPerPage.toInt midRange.toInt 1 1).calculateNumPages

def setItemTotalCount (total : ℤ) : Option TPaginator :=
  { p with itemsTotal := total }.calculateNumPages

def setItemCountPerPage (count : ℤ) : Option TPaginator :=
  { p with itemsPerPage := count }.calculateNumPages

def setMidRange (range : ℤ) : Option TPaginator := { p with midRange := range }.calculateNumPages

def setCurrentPage (page : ℤ) : TPaginator :=
  { p with currentPage := if p.hasPage page then page else 1 }

def offset : Option ℤ := do
  let before ← int (p.currentPage - 1)
  int (before * p.itemsPerPage)

/-- `qBound(0, _itemsTotal - offset(), _itemsPerPage)` -/
def itemCountOfCurrentPage : Option ℤ := do
  let rest ← int (p.itemsTotal - (← p.offset))
  return max 0 (min p.itemsPerPage rest)

def previousPage : Option ℤ := do
  return max (← int (p.currentPage - 1)) 1

def nextPage : Option ℤ := do
  return min (← int (p.currentPage + 1)) p.numPages

/-- The page numbers to be shown on a pagination bar. -/
def range : Option (List ℤ) := do
  let start := max (← int (p.currentPage - p.midRange.tdiv 2)) 1
  if start = 1 then numbers start (min p.midRange p.numPages)
  else
    let stop := min (← int (p.currentPage + p.midRange.tdiv 2)) p.numPages
    if stop = p.numPages then
      let start ← int ((← int (stop - p.midRange)) + 1)
      numbers (max start 1) stop
    else numbers start stop

end TPaginator

open TPaginator

/-- The calls that change a paginator. -/
inductive Setter where
  | itemTotalCount (total : Int32)
  | itemCountPerPage (count : Int32)
  | midRange (range : Int32)
  | currentPage (page : Int32)

def step (p : TPaginator) : Setter → Option TPaginator
  | .itemTotalCount total => p.setItemTotalCount total.toInt
  | .itemCountPerPage count => p.setItemCountPerPage count.toInt
  | .midRange range => p.setMidRange range.toInt
  | .currentPage page => some (p.setCurrentPage page.toInt)

/-- The constructor, then the setters in turn. -/
def run (itemsTotal itemsPerPage midRange : Int32) (calls : List Setter) : Option TPaginator := do
  calls.foldlM step (← create itemsTotal itemsPerPage midRange)

/-- The numbers of all pages. -/
def pages (p : TPaginator) : List ℤ := (List.range p.numPages.toNat).map fun i : ℕ => (i : ℤ) + 1

/-- The item counts of all pages, each set as the current one. -/
def itemCounts (p : TPaginator) : Option (List ℤ) :=
  (pages p).mapM fun page => (p.setCurrentPage page).itemCountOfCurrentPage

/-- What the constructor and the setters establish; the bounds `2 ^ 31` are those of an `int`. -/
structure Valid (p : TPaginator) : Prop where
  total : 0 ≤ p.itemsTotal ∧ p.itemsTotal < 2 ^ 31
  perPage : 1 ≤ p.itemsPerPage ∧ p.itemsPerPage < 2 ^ 31
  mid : 1 ≤ p.midRange ∧ p.midRange < 2 ^ 31
  odd : p.midRange % 2 = 1
  numPages : p.numPages = max 1 ⌈(p.itemsTotal / p.itemsPerPage : ℚ)⌉
  current : 1 ≤ p.currentPage ∧ p.currentPage ≤ p.numPages

/-! ### The number of pages -/

lemma ceil_div_le_iff {a b n : ℤ} (hb : 1 ≤ b) : ⌈(a / b : ℚ)⌉ ≤ n ↔ a ≤ n * b := by
  have hb' : (0 : ℚ) < b := by exact_mod_cast hb
  rw [Int.ceil_le, div_le_iff₀ hb']
  exact_mod_cast Iff.rfl

lemma le_ceil_div_mul {a b : ℤ} (hb : 1 ≤ b) : a ≤ ⌈(a / b : ℚ)⌉ * b :=
  (ceil_div_le_iff hb).1 le_rfl

lemma ceil_div_pred_mul_lt {a b : ℤ} (hb : 1 ≤ b) : (⌈(a / b : ℚ)⌉ - 1) * b < a := by
  by_contra h
  have := (ceil_div_le_iff hb).2 (not_lt.1 h)
  omega

lemma ceil_div_nonneg {a b : ℤ} (ha : 0 ≤ a) (hb : 1 ≤ b) : 0 ≤ ⌈(a / b : ℚ)⌉ := by
  by_contra h
  have hle : a ≤ -1 * b := (ceil_div_le_iff hb).1 (by omega)
  omega

lemma ceil_div_le {a b : ℤ} (ha : 0 ≤ a) (hb : 1 ≤ b) : ⌈(a / b : ℚ)⌉ ≤ a :=
  (ceil_div_le_iff hb).2 (le_mul_of_one_le_right ha hb)

namespace Valid

variable {p : TPaginator} (hp : Valid p)
include hp

lemma numPages_pos : 1 ≤ p.numPages := by
  rw [hp.numPages]
  exact le_max_left ..

lemma numPages_lt : p.numPages < 2 ^ 31 := by
  have h := ceil_div_le hp.total.1 hp.perPage.1
  have := hp.total
  rw [hp.numPages]
  omega

lemma total_le : p.itemsTotal ≤ p.numPages * p.itemsPerPage :=
  (le_ceil_div_mul hp.perPage.1).trans
    (mul_le_mul_of_nonneg_right (by rw [hp.numPages]; exact le_max_right ..)
      (by have := hp.perPage; omega))

lemma last_le : (p.numPages - 1) * p.itemsPerPage ≤ p.itemsTotal := by
  rw [hp.numPages]
  rcases le_total ⌈(p.itemsTotal / p.itemsPerPage : ℚ)⌉ 1 with h | h
  · rw [max_eq_left h]
    have := hp.total
    omega
  · rw [max_eq_right h]
    exact (ceil_div_pred_mul_lt hp.perPage.1).le

end Valid

/-! ### One call, a run of calls -/

lemma tmod_two {n : ℤ} (h : 0 ≤ n) : n.tmod 2 = n % 2 := Int.tmod_eq_emod_of_nonneg h

lemma oddRange_spec {n : ℤ} (h₁ : 1 ≤ n) (h₂ : n < 2 ^ 31) :
    ∃ m, oddRange n = some m ∧ (1 ≤ m ∧ m < 2 ^ 31) ∧ m % 2 = 1 := by
  rw [oddRange, tmod_two (by omega)]
  split
  · exact ⟨n, rfl, ⟨h₁, h₂⟩, by omega⟩
  · exact ⟨n + 1, int_of_fits (by omega) (by omega), by omega, by omega⟩

lemma calculateNumPages_spec (p : TPaginator) (ht : p.itemsTotal < 2 ^ 31)
    (hn : p.itemsPerPage < 2 ^ 31) (hm : p.midRange < 2 ^ 31) :
    ∃ q, p.calculateNumPages = some q ∧ Valid q := by
  set total := max p.itemsTotal 0 with htotal
  set count := max p.itemsPerPage 1 with hcount
  have hpages₀ : 0 ≤ ⌈(total / count : ℚ)⌉ := ceil_div_nonneg (by omega) (by omega)
  have hpages₁ : ⌈(total / count : ℚ)⌉ ≤ total := ceil_div_le (by omega) (by omega)
  obtain ⟨mid, hmid, hfits, hodd⟩ := @oddRange_spec (max p.midRange 1) (by omega) (by omega)
  set new := TPaginator.mk total count mid (max ⌈(total / count : ℚ)⌉ 1) p.currentPage with hnew
  refine ⟨{ new with currentPage := if new.hasPage p.currentPage then p.currentPage else 1 },
    ?_, ?_⟩
  · unfold calculateNumPages
    simp only [hmid, ← htotal, ← hcount,
      int_of_fits (show -2 ^ 31 ≤ ⌈(total / count : ℚ)⌉ by omega)
        (show ⌈(total / count : ℚ)⌉ < 2 ^ 31 by omega)]
    rfl
  · refine ⟨⟨le_max_right .., ?_⟩, ⟨le_max_right .., ?_⟩, hfits, hodd, max_comm .., ?_⟩
    · exact max_lt ht (by decide)
    · exact max_lt hn (by decide)
    simp only [hasPage, Bool.and_eq_true, decide_eq_true_eq]
    split_ifs with h
    · exact ⟨by omega, h.2⟩
    · exact ⟨le_rfl, le_max_right ..⟩

lemma setCurrentPage_valid {p : TPaginator} (hp : Valid p) (page : ℤ) :
    Valid (p.setCurrentPage page) := by
  refine { hp with current := ?_ }
  simp only [setCurrentPage, hasPage, Bool.and_eq_true, decide_eq_true_eq]
  split_ifs with h
  · exact ⟨by omega, h.2⟩
  · exact ⟨le_rfl, hp.numPages_pos⟩

lemma toInt_fits (n : Int32) : -2 ^ 31 ≤ n.toInt ∧ n.toInt < 2 ^ 31 :=
  ⟨n.le_toInt, n.toInt_lt⟩

lemma create_spec (itemsTotal itemsPerPage midRange : Int32) :
    ∃ p, create itemsTotal itemsPerPage midRange = some p ∧ Valid p :=
  calculateNumPages_spec _ (toInt_fits _).2 (toInt_fits _).2 (toInt_fits _).2

lemma step_spec {p : TPaginator} (hp : Valid p) (call : Setter) :
    ∃ q, step p call = some q ∧ Valid q := by
  cases call with
  | itemTotalCount total =>
    exact calculateNumPages_spec _ (toInt_fits total).2 hp.perPage.2 hp.mid.2
  | itemCountPerPage count =>
    exact calculateNumPages_spec _ hp.total.2 (toInt_fits count).2 hp.mid.2
  | midRange range => exact calculateNumPages_spec _ hp.total.2 hp.perPage.2 (toInt_fits range).2
  | currentPage page => exact ⟨_, rfl, setCurrentPage_valid hp page.toInt⟩

lemma steps_spec {p : TPaginator} (hp : Valid p) (calls : List Setter) :
    ∃ q, calls.foldlM step p = some q ∧ Valid q := by
  induction calls generalizing p with
  | nil => exact ⟨p, rfl, hp⟩
  | cons call calls ih =>
    obtain ⟨q, hq, hvalid⟩ := step_spec hp call
    obtain ⟨r, hr, hvalid⟩ := ih hvalid
    exact ⟨r, by rw [List.foldlM_cons, hq]; exact hr, hvalid⟩

lemma run_spec (itemsTotal itemsPerPage midRange : Int32) (calls : List Setter) :
    ∃ p, run itemsTotal itemsPerPage midRange calls = some p ∧ Valid p := by
  obtain ⟨p, hp, hvalid⟩ := create_spec itemsTotal itemsPerPage midRange
  obtain ⟨q, hq, hvalid⟩ := steps_spec hvalid calls
  exact ⟨q, by rw [run, hp]; exact hq, hvalid⟩

/-! ### The items of the pages -/

section Items

variable {p : TPaginator} (hp : Valid p)
include hp

lemma before_le {page : ℤ} (h₁ : 1 ≤ page) (h₂ : page ≤ p.numPages) :
    0 ≤ (page - 1) * p.itemsPerPage ∧ (page - 1) * p.itemsPerPage ≤ p.itemsTotal := by
  have hper : 0 ≤ p.itemsPerPage := by have := hp.perPage; omega
  exact ⟨mul_nonneg (by omega) hper,
    (mul_le_mul_of_nonneg_right (by omega) hper).trans hp.last_le⟩

lemma offset_eq : p.offset = some ((p.currentPage - 1) * p.itemsPerPage) := by
  have hcur := hp.current
  have hnum := hp.numPages_lt
  have hbefore := before_le hp hcur.1 hcur.2
  have htotal := hp.total
  rw [offset, int_of_fits (by omega) (by omega)]
  exact int_of_fits (by omega) (by omega)

lemma itemCountOfCurrentPage_eq : p.itemCountOfCurrentPage =
    some (max 0 (min p.itemsPerPage (p.itemsTotal - (p.currentPage - 1) * p.itemsPerPage))) := by
  have hbefore := before_le hp hp.current.1 hp.current.2
  have htotal := hp.total
  rw [itemCountOfCurrentPage, offset_eq hp]
  simp only [Option.bind_eq_bind, Option.bind_some, Option.pure_def]
  rw [int_of_fits (by omega) (by omega), Option.bind_some]

lemma itemCount_page {i : ℕ} (hi : i < p.numPages) :
    (p.setCurrentPage (i + 1)).itemCountOfCurrentPage =
      some (min p.itemsPerPage (p.itemsTotal - i * p.itemsPerPage)) := by
  have hpage : p.setCurrentPage (i + 1) = { p with currentPage := (i : ℤ) + 1 } := by
    rw [setCurrentPage, if_pos]
    simp only [hasPage, Bool.and_eq_true, decide_eq_true_eq]
    omega
  have hbefore : 0 ≤ ((i : ℤ) + 1 - 1) * p.itemsPerPage ∧
      ((i : ℤ) + 1 - 1) * p.itemsPerPage ≤ p.itemsTotal := before_le hp (by omega) (by omega)
  have hper := hp.perPage
  have hvalid := setCurrentPage_valid hp (i + 1)
  rw [itemCountOfCurrentPage_eq hvalid, hpage]
  simp only [add_sub_cancel_right] at hbefore ⊢
  rw [max_eq_right (le_min (by omega) (by omega))]

omit hp in
lemma sum_pages {a b : ℤ} (n : ℕ) (ha : 0 ≤ a) (hn : (n - 1) * b ≤ a) (hb : 0 ≤ b) :
    ((List.range n).map fun i : ℕ => min b (a - i * b)).sum = min a (n * b) := by
  induction n with
  | zero => simp [ha]
  | succ n ih =>
    have hlast : (n : ℤ) * b ≤ a := by simpa using hn
    rw [List.range_succ, List.map_append, List.sum_append, ih (by nlinarith)]
    simp only [List.map_cons, List.map_nil, List.sum_singleton]
    push_cast
    rw [add_one_mul]
    omega

omit hp in
lemma mapM_some {α β : Type} {f : α → Option β} {g : α → β} {l : List α}
    (h : ∀ x ∈ l, f x = some (g x)) : l.mapM f = some (l.map g) := by
  induction l with
  | nil => rfl
  | cons x l ih =>
    rw [List.mapM_cons, h x List.mem_cons_self, ih fun y hy => h y (List.mem_cons_of_mem _ hy)]
    rfl

/-- **The pages partition the items.** -/
lemma itemCounts_sum : (itemCounts p).map List.sum = some p.itemsTotal := by
  have hnum := hp.numPages_pos
  have hcount : itemCounts p = some ((List.range p.numPages.toNat).map fun i : ℕ =>
      min p.itemsPerPage (p.itemsTotal - i * p.itemsPerPage)) := by
    rw [itemCounts, pages, List.mapM_map]
    refine mapM_some fun i hi => itemCount_page hp ?_
    have := List.mem_range.1 hi
    omega
  have hcast : ((p.numPages.toNat : ℕ) : ℤ) = p.numPages := Int.toNat_of_nonneg (by omega)
  rw [hcount, Option.map_some, sum_pages _ hp.total.1, hcast, min_eq_left hp.total_le]
  · rw [hcast]
    exact hp.last_le
  · have := hp.perPage
    omega

end Items

/-! ### The upper end of the numbers -/

/-- No method computes anything that is not an `int`. -/
def NoOverflow (p : TPaginator) : Prop :=
  p.offset.isSome ∧ p.itemCountOfCurrentPage.isSome ∧ p.previousPage.isSome ∧ p.nextPage.isSome ∧
    p.range.isSome

/-- There is an `int` behind the current page and behind the last number of the pagination bar;
away from the start, the half of the bar behind the current page is computed before it is cut. -/
structure Fits (p : TPaginator) : Prop where
  next : p.currentPage < 2 ^ 31 - 1
  bar : if p.currentPage ≤ p.midRange / 2 + 1 then
      p.midRange < 2 ^ 31 - 1 ∨ p.numPages < 2 ^ 31 - 1
    else
      p.currentPage + p.midRange / 2 < 2 ^ 31 - 1 ∨
        p.currentPage + p.midRange / 2 = 2 ^ 31 - 1 ∧ p.numPages < 2 ^ 31 - 1

lemma countUp_isSome {i : ℤ} (hi : 0 ≤ i) (n : ℕ) :
    (countUp i n).isSome ↔ n = 0 ∨ i + n < 2 ^ 31 := by
  induction n generalizing i with
  | zero => simp [countUp]
  | succ n ih =>
    rcases lt_or_ge (i + 1) (2 ^ 31) with h | h
    · have hrest := ih (show 0 ≤ i + 1 by omega)
      have hsome : (countUp i (n + 1)).isSome = (countUp (i + 1) n).isSome := by
        rw [countUp, int_of_fits (by omega) h]
        cases hcount : countUp (i + 1) n <;> simp [hcount]
      rw [hsome, hrest]
      omega
    · have hnone : countUp i (n + 1) = none := by
        rw [countUp, int_of_ge h]
        rfl
      rw [hnone]
      exact iff_of_false Bool.false_ne_true (by omega)

/-- The counter is incremented once more behind the last number. -/
lemma numbers_isSome {start stop : ℤ} (h : 0 ≤ start) (hle : start ≤ stop) :
    (numbers start stop).isSome ↔ stop < 2 ^ 31 - 1 := by
  rw [numbers, countUp_isSome h]
  omega

section Overflow

variable {p : TPaginator} (hp : Valid p)
include hp

lemma previousPage_isSome : p.previousPage.isSome := by
  have hcur := hp.current
  have hnum := hp.numPages_lt
  rw [previousPage, int_of_fits (by omega) (by omega)]
  rfl

lemma nextPage_isSome : p.nextPage.isSome ↔ p.currentPage < 2 ^ 31 - 1 := by
  have hcur := hp.current
  rcases lt_or_ge (p.currentPage + 1) (2 ^ 31) with h | h
  · rw [nextPage, int_of_fits (by omega) h]
    exact iff_of_true rfl (by omega)
  · rw [nextPage, int_of_ge h]
    exact iff_of_false Bool.false_ne_true (by omega)

lemma range_start (h : p.currentPage ≤ p.midRange / 2 + 1) :
    p.range = numbers 1 (min p.midRange p.numPages) := by
  have hcur := hp.current
  have hnum := hp.numPages_lt
  have hmid := hp.mid
  have hhalf : p.midRange.tdiv 2 = p.midRange / 2 := Int.tdiv_eq_ediv_of_nonneg (by omega)
  rw [range, hhalf, int_of_fits (by omega) (by omega)]
  simp only [Option.bind_eq_bind, Option.bind_some, max_eq_right (show
    p.currentPage - p.midRange / 2 ≤ 1 by omega), if_true]

/-- Further on, its right end is computed, then cut at the last page. -/
lemma range_isSome_of_gt (h : p.midRange / 2 + 1 < p.currentPage) :
    p.range.isSome ↔ p.currentPage + p.midRange / 2 < 2 ^ 31 ∧
      min (p.currentPage + p.midRange / 2) p.numPages < 2 ^ 31 - 1 := by
  have hcur := hp.current
  have hnum := hp.numPages_lt
  have hmid := hp.mid
  have hhalf : p.midRange.tdiv 2 = p.midRange / 2 := Int.tdiv_eq_ediv_of_nonneg (by omega)
  rw [range, hhalf, int_of_fits (by omega) (by omega)]
  simp only [Option.bind_eq_bind, Option.bind_some, max_eq_left (show
    1 ≤ p.currentPage - p.midRange / 2 by omega),
    if_neg (show ¬ p.currentPage - p.midRange / 2 = 1 by omega)]
  rcases lt_or_ge (p.currentPage + p.midRange / 2) (2 ^ 31) with hend | hend
  · rw [int_of_fits (by omega) hend]
    simp only [Option.bind_some]
    split_ifs with hlast
    · rw [int_of_fits (by omega) (by omega), Option.bind_some, int_of_fits (by omega) (by omega),
        Option.bind_some, numbers_isSome (by omega) (by omega)]
      omega
    · rw [numbers_isSome (by omega) (by omega)]
      omega
  · rw [int_of_ge hend]
    exact iff_of_false Bool.false_ne_true (by omega)

lemma range_isSome_iff : p.range.isSome ↔
    if p.currentPage ≤ p.midRange / 2 + 1 then p.midRange < 2 ^ 31 - 1 ∨ p.numPages < 2 ^ 31 - 1
    else p.currentPage + p.midRange / 2 < 2 ^ 31 - 1 ∨
      p.currentPage + p.midRange / 2 = 2 ^ 31 - 1 ∧ p.numPages < 2 ^ 31 - 1 := by
  have hnum := hp.numPages_pos
  have hmid := hp.mid
  split_ifs with h
  · rw [range_start hp h, numbers_isSome (by omega) (by omega)]
    omega
  · rw [range_isSome_of_gt hp (by omega)]
    omega

lemma noOverflow_iff : NoOverflow p ↔ Fits p := by
  rw [NoOverflow, nextPage_isSome hp, range_isSome_iff hp]
  constructor
  · rintro ⟨-, -, -, hnext, hbar⟩
    exact ⟨hnext, hbar⟩
  · intro h
    exact ⟨by rw [offset_eq hp]; rfl, by rw [itemCountOfCurrentPage_eq hp]; rfl,
      previousPage_isSome hp, h.next, h.bar⟩

end Overflow

/-- **Every paginator is valid and its pages partition the items.** What its methods compute fits
in an `int` exactly where the current page and the pagination bar are not at the upper end. -/
theorem run_valid (itemsTotal itemsPerPage midRange : Int32) (calls : List Setter) :
    ∃ p, run itemsTotal itemsPerPage midRange calls = some p ∧ Valid p ∧
      (itemCounts p).map List.sum = some p.itemsTotal ∧
      p.offset.isSome ∧ p.itemCountOfCurrentPage.isSome ∧ (NoOverflow p ↔ Fits p) := by
  obtain ⟨p, hp, hvalid⟩ := run_spec itemsTotal itemsPerPage midRange calls
  exact ⟨p, hp, hvalid, itemCounts_sum hvalid, by rw [offset_eq hvalid]; rfl,
    by rw [itemCountOfCurrentPage_eq hvalid]; rfl, noOverflow_iff hvalid⟩

/-- With one item a page and as many items as there are, the page behind the last one is not
an `int`. -/
theorem nextPage_overflow :
    ∃ p, run 2147483647 1 5 [.currentPage 2147483647] = some p ∧ ¬ NoOverflow p :=
  ⟨⟨2147483647, 1, 5, 2147483647, 2147483647⟩, by decide +kernel, fun h => by
    have hnext : (TPaginator.mk 2147483647 1 5 2147483647 2147483647).nextPage = none := by
      decide +kernel
    simpa [hnext] using h.2.2.2.1⟩

/-! ### The window -/

/-- Consecutive page numbers, the current one among them, as many as the bar is wide or all. -/
structure Window (p : TPaginator) (l : List ℤ) : Prop where
  ascending : l.Pairwise (· < ·)
  contiguous : l.IsChain fun a b => b = a + 1
  pages : ∀ n ∈ l, 1 ≤ n ∧ n ≤ p.numPages
  current : p.currentPage ∈ l
  length_eq : (l.length : ℤ) = min p.midRange p.numPages

/-- The part of `Fits` that is about the bar. -/
def BarFits (p : TPaginator) : Prop :=
  if p.currentPage ≤ p.midRange / 2 + 1 then p.midRange < 2 ^ 31 - 1 ∨ p.numPages < 2 ^ 31 - 1
  else p.currentPage + p.midRange / 2 < 2 ^ 31 - 1 ∨
    p.currentPage + p.midRange / 2 = 2 ^ 31 - 1 ∧ p.numPages < 2 ^ 31 - 1

lemma countUp_eq {i : ℤ} (hi : 0 ≤ i) {n : ℕ} (h : i + n < 2 ^ 31) :
    countUp i n = some ((List.range n).map fun k : ℕ => i + k) := by
  induction n generalizing i with
  | zero => rfl
  | succ n ih =>
    rw [countUp, int_of_fits (by omega) (by omega)]
    simp only [Option.bind_eq_bind, Option.bind_some, ih (show 0 ≤ i + 1 by omega) (by omega)]
    rw [List.range_succ_eq_map, List.map_cons, List.map_map]
    refine congrArg some (congrArg₂ _ (by simp) (List.map_congr_left fun k _ => ?_))
    simp only [Function.comp_apply, Nat.succ_eq_add_one]
    omega

lemma chain_range (i : ℤ) (n : ℕ) :
    ((List.range n).map fun k : ℕ => i + k).IsChain fun a b => b = a + 1 := by
  rw [List.isChain_iff_getElem]
  intro k hk
  simp only [List.getElem_map, List.getElem_range]
  omega

section Window

variable {p : TPaginator} (hp : Valid p)
include hp

lemma range_bounds (h : BarFits p) : ∃ start stop, p.range = numbers start stop ∧ 1 ≤ start ∧
    start ≤ p.currentPage ∧ p.currentPage ≤ stop ∧ stop ≤ p.numPages ∧ stop < 2 ^ 31 - 1 ∧
      stop + 1 - start = min p.midRange p.numPages := by
  have hcur := hp.current
  have hnum := hp.numPages_lt
  have hmid := hp.mid
  have hodd := hp.odd
  rw [BarFits] at h
  split_ifs at h with hstart
  · exact ⟨1, _, range_start hp hstart, by omega⟩
  · have hhalf : p.midRange.tdiv 2 = p.midRange / 2 := Int.tdiv_eq_ediv_of_nonneg (by omega)
    rw [range, hhalf, int_of_fits (by omega) (by omega)]
    simp only [Option.bind_eq_bind, Option.bind_some, max_eq_left (show
      1 ≤ p.currentPage - p.midRange / 2 by omega),
      if_neg (show ¬ p.currentPage - p.midRange / 2 = 1 by omega)]
    rw [int_of_fits (by omega) (by omega)]
    simp only [Option.bind_some]
    split_ifs with hlast
    · rw [int_of_fits (by omega) (by omega), Option.bind_some, int_of_fits (by omega) (by omega)]
      exact ⟨_, _, rfl, by omega⟩
    · exact ⟨_, _, rfl, by omega⟩

lemma range_window (h : BarFits p) : ∃ l, p.range = some l ∧ Window p l := by
  obtain ⟨start, stop, hrange, hpos, hle, hge, hlast, hfits, hlen⟩ := range_bounds hp h
  have hnumbers : numbers start stop =
      some ((List.range (stop + 1 - start).toNat).map fun k : ℕ => start + k) :=
    countUp_eq (by omega) (by omega)
  refine ⟨_, hrange.trans hnumbers, ?_, chain_range start _, ?_, ?_, ?_⟩
  · refine List.pairwise_map.2 (List.pairwise_lt_range.imp fun hlt => ?_)
    omega
  · simp only [List.mem_map, List.mem_range, forall_exists_index, and_imp]
    rintro _ k hk rfl
    omega
  · exact List.mem_map.2 ⟨(p.currentPage - start).toNat, List.mem_range.2 (by omega), by omega⟩
  · rw [List.length_map, List.length_range]
    omega

lemma range_window_iff : (∃ l, p.range = some l ∧ Window p l) ↔ BarFits p := by
  refine ⟨fun ⟨l, hl, _⟩ => ?_, range_window hp⟩
  exact (range_isSome_iff hp).1 (by rw [hl]; rfl)

end Window

/-- **The window around the current page** is right in every paginator whose bar stays below the
greatest `int`; else it is not computed. -/
theorem run_range_iff (itemsTotal itemsPerPage midRange : Int32) (calls : List Setter) :
    ∃ p, run itemsTotal itemsPerPage midRange calls = some p ∧
      ((∃ l, p.range = some l ∧ Window p l) ↔ BarFits p) := by
  obtain ⟨p, hp, hvalid⟩ := run_spec itemsTotal itemsPerPage midRange calls
  exact ⟨p, hp, range_window_iff hvalid⟩

/-- On the last of as many pages as there are numbers, the right end of the bar is not an `int`. -/
theorem range_overflow : ¬ ∀ (itemsTotal itemsPerPage midRange : Int32) (calls : List Setter),
    ∃ p, run itemsTotal itemsPerPage midRange calls = some p ∧
      ∃ l, p.range = some l ∧ Window p l := by
  intro h
  obtain ⟨p, hrun, l, hl, -⟩ := h 2147483647 1 5 [.currentPage 2147483647]
  have hp : run 2147483647 1 5 [.currentPage 2147483647] =
      some ⟨2147483647, 1, 5, 2147483647, 2147483647⟩ := by decide +kernel
  obtain rfl := Option.some.inj (hp.symm.trans hrun)
  have hnone : (TPaginator.mk 2147483647 1 5 2147483647 2147483647).range = none := by
    decide +kernel
  exact absurd (hnone.symm.trans hl) (by simp)

end TreeFrog.Paginator
