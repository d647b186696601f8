import Mathlib.Data.List.Pairwise
import Ciel.Formatter.Ranges

/-!
# Which tokens the formatter copies

The ranges that the formatter finds, described by the tokens alone: a range starts with
the first of consecutive tokens of configuration items or with a comment that switches
the formatter off, and holds every two neighbours that are copied together. The loops
that find the ranges and the merging of ranges are related to this description.
-/

namespace Ciel.Formatter

variable {idx : Nat} {rest : List Token} {ranges : List RawRange}

section Copied

variable (source : List Char) (tokens : List Token)

def configAt (idx : Nat) : Prop := ∃ token, tokens[idx]? = some token ∧ token.inConfigItem

def directiveAt (idx : Nat) : Option FormatDirective := tokens[idx]?.bind formatDirective

/-- The comment with an index switches the formatter off, and it is still off at `idx`. -/
def OffSince (off idx : Nat) : Prop :=
  directiveAt tokens off = some .off ∧ ∀ k, off ≤ k → k < idx → directiveAt tokens k ≠ some .on

/-- The first token of a range, and where its copy starts: the line of a configuration
item, and the indentation of a comment. -/
inductive CopyStart : Nat → Nat → Prop
  | config {idx : Nat} (item : configAt tokens idx)
      (first : ∀ before, before + 1 = idx → ¬ configAt tokens before) :
      CopyStart idx (lineStart source (startAt source tokens idx))
  | off {idx : Nat} (comment : directiveAt tokens idx = some .off)
      (first : ∀ before, before < idx → ¬ OffSince tokens before idx) :
      CopyStart idx (protectedRangeStart source (startAt source tokens idx))

/-- The token with an index and the next one are copied together: both belong to
configuration items, or the formatter is off from the first to the second. -/
def Linked (idx : Nat) : Prop :=
  idx + 1 < tokens.length ∧
    (configAt tokens idx ∧ configAt tokens (idx + 1) ∨
      ∃ off, off ≤ idx ∧ OffSince tokens off (idx + 1))

/-- The ranges before they are merged are as they should be. -/
structure RawRange.Copies (range : RawRange) : Prop extends range.Fits source tokens where
  first : CopyStart source tokens range.startIdx range.rawStart
  linked : ∀ idx, range.startIdx ≤ idx → idx < range.endIdx → Linked tokens idx

/-- What a list of ranges found from an index on must hold. -/
structure ConfigFound (idx : Nat) (run : Option RawRange) (ranges : List RawRange) : Prop where
  copies : ∀ r ∈ ranges, r.Copies source tokens
  starts : ∀ c, idx ≤ c → configAt tokens c →
    (∀ before, before + 1 = c → ¬ configAt tokens before) →
      ∃ r ∈ ranges, r.startIdx = c ∧ r.rawStart = lineStart source (startAt source tokens c)
  pairs : ∀ j, idx ≤ j + 1 → configAt tokens j → configAt tokens (j + 1) →
    ∃ r ∈ ranges, r.startIdx ≤ j ∧ j + 1 ≤ r.endIdx
  runs : ∀ r, run = some r → ∃ r' ∈ ranges, r'.startIdx = r.startIdx ∧
    r'.rawStart = r.rawStart ∧ r.endIdx ≤ r'.endIdx

/-- The range of configuration tokens that ends before an index. -/
def RunBefore (idx : Nat) : Option RawRange → Prop
  | some r => r.Copies source tokens ∧ r.endIdx + 1 = idx ∧ configAt tokens r.endIdx
  | none => ∀ before, before + 1 = idx → ¬ configAt tokens before

/-- The comment that switched the formatter off and has not been answered before an index. -/
def OpenBefore (idx : Nat) : Option (Nat × Nat) → Prop
  | some (off, rawStart) =>
    off < idx ∧ idx ≤ tokens.length ∧ OffSince tokens off idx ∧
      CopyStart source tokens off rawStart
  | none => ∀ off < idx, ¬ OffSince tokens off idx

/-- What a list of disabled ranges found from an index on must hold. -/
structure DisabledFound (idx : Nat) (start : Option (Nat × Nat))
    (ranges : List RawRange) : Prop where
  copies : ∀ r ∈ ranges, r.Copies source tokens
  starts : ∀ off, idx ≤ off → directiveAt tokens off = some .off →
    (∀ before < off, ¬ OffSince tokens before off) → ∃ r ∈ ranges, r.startIdx = off ∧
      r.rawStart = protectedRangeStart source (startAt source tokens off)
  pairs : ∀ j off, idx ≤ j + 1 → j + 1 < tokens.length → off ≤ j →
    OffSince tokens off (j + 1) → ∃ r ∈ ranges, r.startIdx ≤ j ∧ j + 1 ≤ r.endIdx
  opened : ∀ off rawStart, start = some (off, rawStart) →
    ∃ r ∈ ranges, r.startIdx = off ∧ r.rawStart = rawStart ∧ idx ≤ r.endIdx + 1 ∧
      (idx < tokens.length → idx ≤ r.endIdx)

/-! ### Merged ranges -/

/-- A merged range holds tokens that are copied together, from where the copy of one of its
ranges starts. -/
structure RawRange.Merged (range : RawRange) : Prop extends range.Fits source tokens where
  linked : ∀ idx, range.startIdx ≤ idx → idx < range.endIdx → Linked tokens idx
  first : ∃ idx, range.startIdx ≤ idx ∧ idx ≤ range.endIdx ∧
    CopyStart source tokens idx range.rawStart

/-- A range lies in another one. -/
def RawRange.Within (range outer : RawRange) : Prop :=
  outer.startIdx ≤ range.startIdx ∧ range.endIdx ≤ outer.endIdx ∧ outer.rawStart ≤ range.rawStart

/-- What merging makes of ranges in order. -/
structure MergeResult (ranges merged : List RawRange) : Prop where
  all : ∀ m ∈ merged, m.Merged source tokens
  within : ∀ r ∈ ranges, ∃ m ∈ merged, r.Within m
  apart : merged.Pairwise fun a b => a.endIdx < b.startIdx

/-- No copy starts inside or before a token that is not copied with it: whatever token ends
behind the place where the copy of a range starts is linked to the range. For a
configuration item this place is the beginning of its line. -/
def Separated : Prop :=
  ∀ first rawStart, CopyStart source tokens first rawStart →
    ∀ idx < first, rawStart < endBefore tokens (idx + 1) →
      ∀ j, idx ≤ j → j < first → Linked tokens j

variable {source tokens}

theorem CopyStart.le_startAt {rawStart : Nat} (copy : CopyStart source tokens idx rawStart) :
    rawStart ≤ startAt source tokens idx := by
  cases copy with
  | config => exact lineStart_le _ _
  | off => exact protectedRangeStart_le _ _

theorem getElem?_of_drop {token : Token} (suffix : tokens.drop idx = token :: rest) :
    tokens[idx]? = some token ∧ tokens.drop (idx + 1) = rest ∧ idx < tokens.length := by
  have lt : idx < tokens.length := by
    by_contra ge
    simp [List.drop_eq_nil_of_le (Nat.le_of_not_lt ge)] at suffix
  rw [List.drop_eq_getElem_cons lt] at suffix
  obtain ⟨same, rfl⟩ := List.cons.inj suffix
  exact ⟨same ▸ List.getElem?_eq_getElem lt, rfl, lt⟩

theorem OffSince.mono {off i j : Nat} (since : OffSince tokens off j) (le : i ≤ j) :
    OffSince tokens off i :=
  ⟨since.1, fun k first less => since.2 k first (lt_of_lt_of_le less le)⟩

theorem OffSince.next {off : Nat} (since : OffSince tokens off idx)
    (noOn : directiveAt tokens idx ≠ some .on) : OffSince tokens off (idx + 1) := by
  refine ⟨since.1, fun k first less => ?_⟩
  rcases Nat.lt_or_eq_of_le (Nat.le_of_lt_succ less) with less | rfl
  · exact since.2 k first less
  · exact noOn

/-- A range from an unanswered comment to an index. -/
theorem disabled_copies {off rawStart rawEnd : Nat} (before : off ≤ idx)
    (exist : idx < tokens.length) (since : OffSince tokens off idx)
    (start : CopyStart source tokens off rawStart) (holds : endBefore tokens (idx + 1) ≤ rawEnd)
    (ends : rawEnd ≤ startAt source tokens (idx + 1)) :
    RawRange.Copies source tokens ⟨off, idx, rawStart, rawEnd⟩ where
  ordered := before
  exist := exist
  start := start.le_startAt
  holds := holds
  ends := ends
  first := start
  linked j le less := by
    have less : j < idx := less
    exact ⟨by omega, .inr ⟨off, le, since.mono less⟩⟩

/-- One more token before the ones whose ranges are found. -/
theorem DisabledFound.step {start start' : Option (Nat × Nat)} {later : List RawRange}
    (found : DisabledFound source tokens (idx + 1) start' later) (sub : ∀ r ∈ later, r ∈ ranges)
    (copies : ∀ r ∈ ranges, r.Copies source tokens)
    (here : directiveAt tokens idx = some .off → (∀ before < idx, ¬ OffSince tokens before idx) →
      ∃ r ∈ ranges, r.startIdx = idx ∧
        r.rawStart = protectedRangeStart source (startAt source tokens idx))
    (inside : ∀ off < idx, OffSince tokens off idx →
      ∃ r ∈ ranges, r.startIdx < idx ∧ idx ≤ r.endIdx)
    (opened : ∀ off rawStart, start = some (off, rawStart) →
      ∃ r ∈ ranges, r.startIdx = off ∧ r.rawStart = rawStart ∧ idx ≤ r.endIdx + 1 ∧
        (idx < tokens.length → idx ≤ r.endIdx)) :
    DisabledFound source tokens idx start ranges := by
  refine ⟨copies, ?_, ?_, opened⟩
  · intro off le comment first
    rcases Nat.lt_or_eq_of_le le with less | rfl
    · obtain ⟨r, mem, result⟩ := found.starts off less comment first
      exact ⟨r, sub r mem, result⟩
    · exact here comment first
  · intro j off le exist before since
    rcases Nat.lt_or_eq_of_le le with less | same
    · obtain ⟨r, mem, result⟩ := found.pairs j off less exist before since
      exact ⟨r, sub r mem, result⟩
    · obtain ⟨r, mem, first, last⟩ := inside off (by omega) (same ▸ since)
      exact ⟨r, mem, by omega, by omega⟩

theorem RawRange.Copies.merged {range : RawRange} (copies : range.Copies source tokens) :
    range.Merged source tokens where
  toFits := copies.toFits
  linked := copies.linked
  first := ⟨range.startIdx, le_rfl, copies.ordered, copies.first⟩

theorem RawRange.within_merge {last range : RawRange} (sorted : last.startIdx ≤ range.startIdx) :
    last.Within (last.merge range) ∧ range.Within (last.merge range) :=
  ⟨⟨le_rfl, le_max_left _ _, min_le_left _ _⟩, sorted, le_max_right _ _, min_le_right _ _⟩

theorem RawRange.Within.trans {a b c : RawRange} (first : a.Within b) (second : b.Within c) :
    a.Within c :=
  ⟨second.1.trans first.1, first.2.1.trans second.2.1, second.2.2.trans first.2.2⟩

theorem MergeResult.disjoint {merged : List RawRange}
    (result : MergeResult source tokens ranges merged) {a b : RawRange} (mem : a ∈ merged)
    (mem' : b ∈ merged) (different : a ≠ b) : a.endIdx < b.startIdx ∨ b.endIdx < a.startIdx := by
  have either : merged.Pairwise fun a b : RawRange =>
      a.endIdx < b.startIdx ∨ b.endIdx < a.startIdx :=
    result.apart.imp fun less => .inl less
  have symm : Std.Symm fun a b : RawRange => a.endIdx < b.startIdx ∨ b.endIdx < a.startIdx :=
    ⟨fun _ _ => Or.symm⟩
  exact either.forall mem mem' different

theorem mem_sortedRanges {r : RawRange} : r ∈ sortedRanges source tokens ↔
    r ∈ disabledFormatRanges source tokens ∨ r ∈ configFormatRanges source tokens := by
  simp [sortedRanges, List.mem_insertionSort]

variable (wf : TokensOf source tokens)
include wf

/-- The run of configuration tokens that goes on with the token at an index. -/
theorem run_extend {run : Option RawRange} {token : Token}
    (before : RunBefore source tokens idx run) (suffix : tokens.drop idx = token :: rest)
    (item : token.inConfigItem) :
    RunBefore source tokens (idx + 1) (some (match run with
      | some range => { range with endIdx := idx, rawEnd := token.endByte }
      | none => ⟨idx, idx, lineStart source token.startByte, token.endByte⟩)) := by
  obtain ⟨found, -, lt⟩ := getElem?_of_drop suffix
  have here : configAt tokens idx := ⟨token, found, item⟩
  have ends : token.endByte ≤ startAt source tokens (idx + 1) := by
    rw [← endBefore_succ found]
    exact wf.endBefore_le lt
  cases run with
  | none =>
    have start : CopyStart source tokens idx _ := .config here before
    rw [startAt_eq found] at start
    refine ⟨⟨⟨le_rfl, lt, ?_, (endBefore_succ found).le, ends⟩, start, ?_⟩, rfl, here⟩
    · rw [startAt_eq found]
      exact lineStart_le _ _
    · intro j le less
      exact absurd less (by simpa using le)
  | some range =>
    obtain ⟨copies, next, last⟩ := before
    refine ⟨⟨⟨?_, lt, copies.start, (endBefore_succ found).le, ends⟩, copies.first, ?_⟩, rfl, here⟩
    · have := copies.ordered
      show range.startIdx ≤ idx
      omega
    · intro j le less
      rcases Nat.lt_or_ge j range.endIdx with inner | outer
      · exact copies.linked j le inner
      · have : j = range.endIdx := by
          have : j < idx := less
          omega
        subst this
        exact ⟨by omega, .inl ⟨last, next ▸ here⟩⟩

/-- The loop of `config_format_ranges` finds the runs of configuration tokens. -/
theorem configFrom_found {run : Option RawRange} (before : RunBefore source tokens idx run)
    (suffix : tokens.drop idx = rest) :
    ConfigFound source tokens idx run (configFrom source idx run rest) := by
  induction rest generalizing idx run with
  | nil =>
    have outside {c : Nat} (le : idx ≤ c) : ¬ configAt tokens c := by
      rintro ⟨token, found, -⟩
      have := (List.getElem?_eq_some_iff.mp found).1
      have := List.drop_eq_nil_iff.mp suffix
      omega
    cases run with
    | none =>
      exact ⟨by simp [configFrom], fun c le item _ => absurd item (outside le),
        fun j le _ item => absurd item (outside le), by simp⟩
    | some range =>
      refine ⟨?_, fun c le item _ => absurd item (outside le),
        fun j le _ item => absurd item (outside le), ?_⟩
      · simpa [configFrom] using before.1
      · rintro r ⟨⟩
        exact ⟨range, by simp [configFrom], rfl, rfl, le_rfl⟩
  | cons token rest ih =>
    obtain ⟨found, suffix', lt⟩ := getElem?_of_drop suffix
    by_cases item : token.inConfigItem
    · have extended := run_extend wf before suffix item
      have later := ih extended suffix'
      cases run with
      | none =>
        simp only [configFrom, item, if_true]
        obtain ⟨r, mem, start, rawStart, -⟩ := later.runs _ rfl
        refine ⟨later.copies, ?_, ?_, by simp⟩
        · intro c le item first
          rcases Nat.lt_or_eq_of_le le with less | rfl
          · exact later.starts c less item first
          · exact ⟨r, mem, start, by rw [rawStart, startAt_eq found]⟩
        · intro j le first second
          rcases Nat.lt_or_eq_of_le le with less | same
          · exact later.pairs j less first second
          · exact absurd first (before j same.symm)
      | some range =>
        simp only [configFrom, item, if_true]
        obtain ⟨copies, next, last⟩ := before
        obtain ⟨r, mem, start, rawStart, reach⟩ := later.runs _ rfl
        refine ⟨later.copies, ?_, ?_, ?_⟩
        · intro c le item first
          rcases Nat.lt_or_eq_of_le le with less | rfl
          · exact later.starts c less item first
          · exact absurd last (first _ next)
        · intro j le first second
          rcases Nat.lt_or_eq_of_le le with less | same
          · exact later.pairs j less first second
          · have := copies.ordered
            have : idx ≤ r.endIdx := reach
            have : r.startIdx = range.startIdx := start
            exact ⟨r, mem, by omega, by omega⟩
        · rintro _ ⟨⟩
          have : idx ≤ r.endIdx := reach
          exact ⟨r, mem, start, rawStart, by omega⟩
    have noItem : ¬ configAt tokens idx := by
      rintro ⟨t, same, inConfig⟩
      cases found.symm.trans same
      exact item inConfig
    have none : RunBefore source tokens (idx + 1) none := by
      intro b same
      cases same
      exact noItem
    have later := ih none suffix'
    have next {c : Nat} (le : idx ≤ c) (item : configAt tokens c) : idx + 1 ≤ c := by
      rcases Nat.lt_or_eq_of_le le with lt | rfl
      · exact lt
      · exact absurd item noItem
    cases run with
    | none =>
      simp only [configFrom, item, Bool.false_eq_true, if_false]
      exact ⟨later.copies, fun c le item => later.starts c (next le item) item,
        fun j le first second => later.pairs j (next le second) first second, by simp⟩
    | some range =>
      simp only [configFrom, item, Bool.false_eq_true, if_false]
      refine ⟨?_, ?_, ?_, ?_⟩
      · exact List.forall_mem_cons.mpr ⟨before.1, later.copies⟩
      · intro c le item first
        obtain ⟨r, mem, found⟩ := later.starts c (next le item) item first
        exact ⟨r, List.mem_cons_of_mem _ mem, found⟩
      · intro j le first second
        obtain ⟨r, mem, found⟩ := later.pairs j (next le second) first second
        exact ⟨r, List.mem_cons_of_mem _ mem, found⟩
      · rintro r ⟨⟩
        exact ⟨range, List.mem_cons_self, rfl, rfl, le_rfl⟩

/-- The loop of `disabled_format_ranges` finds the ranges in which the formatter is off. -/
theorem disabledFrom_found {start : Option (Nat × Nat)}
    (before : OpenBefore source tokens idx start) (suffix : tokens.drop idx = rest) :
    DisabledFound source tokens idx start (disabledFrom source idx start rest) := by
  induction rest generalizing idx start with
  | nil =>
    have length := List.drop_eq_nil_iff.mp suffix
    have outside {off : Nat} (le : idx ≤ off) : directiveAt tokens off ≠ some .off := by
      have : tokens[off]? = none := List.getElem?_eq_none (le_trans length le)
      simp [directiveAt, this]
    cases start with
    | none =>
      exact ⟨by simp [disabledFrom], fun off le comment _ => absurd comment (outside le),
        fun j off le lt => by omega, by simp⟩
    | some opened =>
      obtain ⟨off, rawStart⟩ := opened
      obtain ⟨less, le, since, copy⟩ := before
      have last : idx = tokens.length := le_antisymm le length
      subst last
      have index : tokens.length - 1 + 1 = tokens.length := by omega
      refine ⟨?_, fun off le comment _ => absurd comment (outside le),
        fun j off le lt => by omega, ?_⟩
      · simp only [disabledFrom, List.mem_singleton, forall_eq]
        refine disabled_copies (by omega) (by omega) (since.mono (by omega)) copy ?_ ?_
        · rw [index]
          exact (wf.endBefore_le le_rfl).trans startAt_length.le
        · rw [index, startAt_length]
      · rintro _ _ ⟨⟩
        exact ⟨_, List.mem_singleton_self _, rfl, rfl, index.ge, fun less => by omega⟩
  | cons token rest ih =>
    obtain ⟨found, suffix', lt⟩ := getElem?_of_drop suffix
    have here : directiveAt tokens idx = formatDirective token := by
      simp [directiveAt, found]
    cases start with
    | none =>
      have inside (ranges : List RawRange) (off : Nat) (less : off < idx)
          (since : OffSince tokens off idx) :
          ∃ r ∈ ranges, r.startIdx < idx ∧ idx ≤ r.endIdx :=
        absurd since (before off less)
      by_cases off : formatDirective token = some .off
      · -- the comment opens a range
        have copy : CopyStart source tokens idx _ := .off (here.trans off) before
        rw [startAt_eq found] at copy
        have noOn : directiveAt tokens idx ≠ some .on := by simp [here, off]
        have since : OffSince tokens idx (idx + 1) :=
          OffSince.next ⟨here.trans off, fun k first less => by omega⟩ noOn
        have opened : OpenBefore source tokens (idx + 1)
            (some (idx, protectedRangeStart source token.startByte)) :=
          ⟨Nat.lt_succ_self idx, lt, since, copy⟩
        have later := ih opened suffix'
        obtain ⟨r, mem, first, rawStart, -, -⟩ := later.opened _ _ rfl
        simp only [disabledFrom, off]
        refine later.step (fun r mem => mem) later.copies ?_ (inside _) (by simp)
        intro _ _
        exact ⟨r, mem, first, by rw [rawStart, startAt_eq found]⟩
      have still : OpenBefore source tokens (idx + 1) none := by
        intro o less since
        rcases Nat.lt_or_eq_of_le (Nat.le_of_lt_succ less) with less | rfl
        · exact before o less (since.mono (Nat.le_succ idx))
        · exact off (here.symm.trans since.1)
      have later := ih still suffix'
      have same : disabledFrom source idx none (token :: rest) =
          disabledFrom source (idx + 1) none rest := by
        simp only [disabledFrom]
        split <;> simp_all
      rw [same]
      refine later.step (fun r mem => mem) later.copies ?_ (inside _) (by simp)
      intro comment
      exact absurd (here.symm.trans comment) off
    | some opened =>
      obtain ⟨off, rawStart⟩ := opened
      obtain ⟨less, -, since, copy⟩ := before
      by_cases on : formatDirective token = some .on
      · -- the comment closes the range
        have none : OpenBefore source tokens (idx + 1) none := by
          intro o less' since'
          rcases Nat.lt_or_eq_of_le (Nat.le_of_lt_succ less') with _ | rfl
          · exact since'.2 idx (by omega) (Nat.lt_succ_self idx) (here.trans on)
          · have := since'.1
            rw [here, on] at this
            cases this
        have later := ih none suffix'
        have range : RawRange.Copies source tokens ⟨off, idx, rawStart, token.endByte⟩ := by
          refine disabled_copies less.le lt since copy (endBefore_succ found).le ?_
          rw [← endBefore_succ found]
          exact wf.endBefore_le lt
        simp only [disabledFrom, on]
        refine later.step (fun r mem => List.mem_cons_of_mem _ mem)
          (List.forall_mem_cons.mpr ⟨range, later.copies⟩) ?_ ?_ ?_
        · intro comment
          rw [here, on] at comment
          cases comment
        · intro _ _ _
          exact ⟨_, List.mem_cons_self, less, le_rfl⟩
        · rintro _ _ ⟨⟩
          exact ⟨_, List.mem_cons_self, rfl, rfl, Nat.le_succ idx, fun _ => le_rfl⟩
      have noOn : directiveAt tokens idx ≠ some .on := here ▸ on
      have opened : OpenBefore source tokens (idx + 1) (some (off, rawStart)) :=
        ⟨Nat.lt_succ_of_lt less, lt, since.next noOn, copy⟩
      have later := ih opened suffix'
      have same : disabledFrom source idx (some (off, rawStart)) (token :: rest) =
          disabledFrom source (idx + 1) (some (off, rawStart)) rest := by
        simp only [disabledFrom]
        split <;> simp_all
      obtain ⟨r, mem, first, raw, reach, -⟩ := later.opened _ _ rfl
      rw [same]
      refine later.step (fun r mem => mem) later.copies ?_ ?_ ?_
      · intro _ alone
        exact absurd since (alone off less)
      · intro _ _ _
        exact ⟨r, mem, by omega, by omega⟩
      · rintro _ _ ⟨⟩
        exact ⟨r, mem, first, raw, by omega, fun _ => by omega⟩

theorem RawRange.Merged.merge {last range : RawRange} (merged : last.Merged source tokens)
    (copies : range.Copies source tokens) (sorted : last.startIdx ≤ range.startIdx)
    (meets : range.startIdx ≤ last.endIdx) : (last.merge range).Merged source tokens where
  toFits := merged.toFits.merge wf copies.toFits
  linked idx le less := by
    have less : idx < max last.endIdx range.endIdx := less
    rcases Nat.lt_or_ge idx last.endIdx with inner | outer
    · exact merged.linked idx le inner
    · exact copies.linked idx (le_trans meets outer) (by omega)
  first := by
    rcases le_total last.rawStart range.rawStart with le | le
    · obtain ⟨idx, lower, upper, copy⟩ := merged.first
      refine ⟨idx, lower, le_trans upper (le_max_left _ _), ?_⟩
      simpa only [RawRange.merge, min_eq_left le] using copy
    · refine ⟨range.startIdx, sorted, le_trans meets (le_max_left _ _), ?_⟩
      simpa only [RawRange.merge, min_eq_right le] using copies.first

theorem mergeFrom_result {last : RawRange} (merged : last.Merged source tokens)
    (copies : ∀ r ∈ ranges, r.Copies source tokens)
    (sorted : (last :: ranges).Pairwise fun a b => a.startIdx ≤ b.startIdx) :
    MergeResult source tokens (last :: ranges) (mergeFrom last ranges) ∧
      ∀ m ∈ mergeFrom last ranges, last.startIdx ≤ m.startIdx := by
  induction ranges generalizing last with
  | nil =>
    refine ⟨⟨?_, ?_, ?_⟩, ?_⟩ <;> simp only [mergeFrom, List.mem_singleton, forall_eq]
    · exact merged
    · exact ⟨last, rfl, le_rfl, le_rfl, le_rfl⟩
    · exact List.pairwise_singleton _ _
    · exact le_rfl
  | cons range ranges ih =>
    obtain ⟨copies', rest⟩ := List.forall_mem_cons.mp copies
    obtain ⟨least, sorted'⟩ := List.pairwise_cons.mp sorted
    obtain ⟨least', sorted''⟩ := List.pairwise_cons.mp sorted'
    have le := least range List.mem_cons_self
    simp only [mergeFrom]
    split
    next meets =>
      have order : (last.merge range :: ranges).Pairwise fun a b => a.startIdx ≤ b.startIdx :=
        List.pairwise_cons.mpr
          ⟨fun r mem => least r (List.mem_cons_of_mem _ mem), sorted''⟩
      obtain ⟨result, from'⟩ := ih (merged.merge wf copies' le meets) rest order
      obtain ⟨inner, inner'⟩ := RawRange.within_merge le
      refine ⟨⟨result.all, ?_, result.apart⟩, from'⟩
      obtain ⟨m, mem, within⟩ := result.within _ List.mem_cons_self
      intro r member
      rcases List.mem_cons.mp member with rfl | member
      · exact ⟨m, mem, inner.trans within⟩
      rcases List.mem_cons.mp member with rfl | member
      · exact ⟨m, mem, inner'.trans within⟩
      · exact result.within r (List.mem_cons_of_mem _ member)
    next beyond =>
      obtain ⟨result, from'⟩ := ih copies'.merged rest sorted'
      refine ⟨⟨List.forall_mem_cons.mpr ⟨merged, result.all⟩, ?_, ?_⟩, ?_⟩
      · intro r member
        rcases List.mem_cons.mp member with rfl | member
        · exact ⟨r, List.mem_cons_self, le_rfl, le_rfl, le_rfl⟩
        · obtain ⟨m, mem, within⟩ := result.within r member
          exact ⟨m, List.mem_cons_of_mem _ mem, within⟩
      · refine List.pairwise_cons.mpr ⟨fun m mem => ?_, result.apart⟩
        have := from' m mem
        omega
      · exact List.forall_mem_cons.mpr ⟨le_rfl, fun m mem => le.trans (from' m mem)⟩

theorem disabledFormatRanges_found :
    DisabledFound source tokens 0 none (disabledFormatRanges source tokens) :=
  disabledFrom_found wf (fun _ less => absurd less (Nat.not_lt_zero _)) List.drop_zero

theorem configFormatRanges_found :
    ConfigFound source tokens 0 none (configFormatRanges source tokens) :=
  configFrom_found wf (fun _ same => absurd same (Nat.succ_ne_zero _)) List.drop_zero

theorem rawFormatRanges_result :
    MergeResult source tokens (sortedRanges source tokens) (rawFormatRanges source tokens) := by
  have copies : ∀ r ∈ sortedRanges source tokens, r.Copies source tokens := by
    intro r mem
    rcases mem_sortedRanges.mp mem with mem | mem
    · exact (disabledFormatRanges_found wf).copies r mem
    · exact (configFormatRanges_found wf).copies r mem
  have sorted : (sortedRanges source tokens).Pairwise fun a b => a.startIdx ≤ b.startIdx := by
    have total : Std.Total fun a b : RawRange => a.startIdx ≤ b.startIdx :=
      ⟨fun a b => le_total a.startIdx b.startIdx⟩
    have trans : IsTrans RawRange fun a b => a.startIdx ≤ b.startIdx :=
      ⟨fun _ _ _ => le_trans⟩
    exact List.pairwise_insertionSort _ _
  unfold rawFormatRanges
  cases ranges : sortedRanges source tokens with
  | nil => exact ⟨by simp [mergeRanges], by simp, List.Pairwise.nil⟩
  | cons range rest =>
    rw [ranges] at copies sorted
    obtain ⟨first, others⟩ := List.forall_mem_cons.mp copies
    exact (mergeFrom_result wf first.merged others sorted).1

/-- Every copied token starts a range or is in one with its neighbour. -/
theorem CopyStart.exists_range {rawStart : Nat} (copy : CopyStart source tokens idx rawStart) :
    ∃ r ∈ sortedRanges source tokens, r.startIdx = idx ∧ r.rawStart = rawStart := by
  cases copy with
  | config item first =>
    obtain ⟨r, mem, found⟩ := (configFormatRanges_found wf).starts idx (Nat.zero_le _) item first
    exact ⟨r, mem_sortedRanges.mpr (.inr mem), found⟩
  | off comment first =>
    obtain ⟨r, mem, found⟩ :=
      (disabledFormatRanges_found wf).starts idx (Nat.zero_le _) comment first
    exact ⟨r, mem_sortedRanges.mpr (.inl mem), found⟩

theorem Linked.exists_range (linked : Linked tokens idx) :
    ∃ r ∈ sortedRanges source tokens, r.startIdx ≤ idx ∧ idx + 1 ≤ r.endIdx := by
  obtain ⟨exist, ⟨first, second⟩ | ⟨off, before, since⟩⟩ := linked
  · obtain ⟨r, mem, found⟩ :=
      (configFormatRanges_found wf).pairs idx (Nat.zero_le _) first second
    exact ⟨r, mem_sortedRanges.mpr (.inr mem), found⟩
  · obtain ⟨r, mem, found⟩ :=
      (disabledFormatRanges_found wf).pairs idx off (Nat.zero_le _) exist before since
    exact ⟨r, mem_sortedRanges.mpr (.inl mem), found⟩

/-- This is what the formatter needs of the merged ranges. -/
theorem separated_iff : Separated source tokens ↔
    ∀ m ∈ rawFormatRanges source tokens, endBefore tokens m.startIdx ≤ m.rawStart := by
  have result := rawFormatRanges_result wf
  constructor
  · intro separated m mem
    by_contra back
    obtain ⟨first, lower, upper, copy⟩ := (result.all m mem).first
    cases start : m.startIdx with
    | zero => simp [start, endBefore] at back
    | succ k =>
      -- the token before the range would be copied with it, in a range of its own
      rw [start] at back
      have linked := separated first m.rawStart copy k (by omega) (Nat.lt_of_not_le back) k le_rfl
        (by omega)
      obtain ⟨r, inside, lower', upper'⟩ := linked.exists_range wf
      obtain ⟨m', mem', within⟩ := result.within r inside
      have := within.1
      have := within.2.1
      have different : m' ≠ m := by
        rintro rfl
        omega
      have := (result.all m mem).ordered
      rcases result.disjoint mem' mem different with before | after <;> omega
  · intro bounded first rawStart copy idx less behind j le less'
    obtain ⟨r, inside, rfl, rfl⟩ := copy.exists_range wf
    obtain ⟨m, mem, within⟩ := result.within r inside
    have merged := result.all m mem
    have reach : m.startIdx ≤ idx := by
      by_contra beyond
      have mono := wf.endBefore_mono (show idx + 1 ≤ m.startIdx by omega)
        (le_trans merged.ordered merged.exist.le)
      have := bounded m mem
      have := within.2.2
      omega
    have inner : r.startIdx ≤ m.endIdx := by
      rcases mem_sortedRanges.mp inside with mem | mem
      · exact ((disabledFormatRanges_found wf).copies r mem).ordered.trans within.2.1
      · exact ((configFormatRanges_found wf).copies r mem).ordered.trans within.2.1
    exact merged.linked j (by omega) (by omega)

end Copied

end Ciel.Formatter
