import Ciel.Formatter.Copied

/-!
# Formatting keeps the tokens

The formatter writes every token after a separator, and copies the verbatim ranges from
the source (`format_source`). What it chooses for a separator is a matter of layout: the
rules with their state are a parameter here, and everything is shown for all of them. The
document that is rendered has no alternatives, so rendering writes its parts one after the
other.

A character of the output is kept together with whether it comes from a token, so that
white space outside tokens can be told from white space inside them.
-/

namespace Ciel.Formatter

/-- A character, and whether it belongs to a token. -/
structure Glyph where
  char : Char
  inToken : Bool
  deriving DecidableEq, Repr

/-- The text without the white space outside tokens. -/
def significant (glyphs : List Glyph) : List Char :=
  (glyphs.filter fun g => g.inToken || !isWhitespace g.char).map Glyph.char

/-- A part of the source. -/
def sourceGlyphs (source : List Char) (tokens : List Token) (first last : Nat) : List Glyph :=
  (List.range' first (last - first)).map fun i => ⟨source.getD i ' ', inToken tokens i⟩

/-! ### Layout -/

inductive Separator
  | nothing
  | space
  | line (extra : Nat)
  | blankLine (extra : Nat)
  deriving DecidableEq, Repr

def Separator.extra : Separator → Nat
  | .line extra => extra
  | .blankLine extra => extra
  | .nothing => 0
  | .space => 0

def preserveOriginalBlankLines (separator : Separator) (lineBreaksBefore : Nat) : Separator :=
  if lineBreaksBefore < 2 then separator else .blankLine separator.extra

def linesDoc (count indent indentWidth : Nat) : List Char :=
  List.replicate count '\n' ++ List.replicate (indent * indentWidth) ' '

def separatorDoc (separator : Separator) (indent indentWidth : Nat) : List Char :=
  match separator with
  | .nothing => []
  | .space => [' ']
  | .line extra => linesDoc 1 (indent + extra) indentWidth
  | .blankLine extra => linesDoc 2 (indent + extra) indentWidth

/-- The line breaks of the source before the token with an index. -/
def lineBreaksBefore (source : List Char) (tokens : List Token) (idx : Nat) : Nat :=
  if idx = 0 then 0
  else
    let prevEnd := endBefore tokens idx
    ((source.drop prevEnd).take (startAt source tokens idx - prevEnd)).count '\n'

/-- The rules of the layout: the separator between the token before and the token with an
index, its indentation, and how the state goes on after a token and after a range. -/
structure Layout (σ : Type) where
  initial : σ
  indentWidth : Nat
  separatorBefore : σ → Token → Nat → Separator
  baseIndent : σ → Separator → Token → Nat → Nat
  afterToken : σ → Nat → Option (Separator × Nat) → σ
  afterRaw : σ → List Char → RawRange → σ

section Format

variable {σ : Type} (layout : Layout σ) (source : List Char) (tokens : List Token)

/-- The separator before a token, if a token has been written. -/
def separate (state : σ) (previous : Option Token) (idx : Nat) : Option (Separator × Nat) :=
  previous.map fun prev =>
    let separator := preserveOriginalBlankLines (layout.separatorBefore state prev idx)
      (lineBreaksBefore source tokens idx)
    (separator, layout.baseIndent state separator prev idx)

/-- The copy of a range, with what lies between it and the token before. -/
def rawText (previous : Option Token) (range : RawRange) : List Glyph :=
  let first := match previous with
    | some prev => if prev.endByte < range.rawStart then prev.endByte else range.rawStart
    | none => 0
  sourceGlyphs source tokens first range.rawEnd

/-- The loop of `format_source`. Every turn moves on to a later token. -/
def formatLoop : Nat → Nat → List RawRange → Option Token → σ → List Glyph
  | 0, _, _, _, _ => []
  | fuel + 1, idx, ranges, previous, state =>
    match tokens[idx]?, ranges.head?.filter fun range => range.startIdx = idx with
    | none, _ => []
    | some _, some range =>
      let raw := rawText source tokens previous range
      raw ++ formatLoop fuel (range.endIdx + 1) ranges.tail tokens[range.endIdx]?
        (layout.afterRaw state (raw.map Glyph.char) range)
    | some token, none =>
      let separator := separate layout source tokens state previous idx
      let doc := match separator with
        | some (separator, indent) => separatorDoc separator indent layout.indentWidth
        | none => []
      doc.map (⟨·, false⟩) ++ token.text.map (⟨·, true⟩) ++
        formatLoop fuel (idx + 1) ranges (some token) (layout.afterToken state idx separator)

/-- The text that the formatter produces. -/
def formatTokens : List Glyph :=
  let formatted :=
    formatLoop layout source tokens tokens.length 0 (rawFormatRanges source tokens) none
      layout.initial
  match formatted.getLast? with
  | some last => if last.char = '\n' then formatted else formatted ++ [⟨'\n', false⟩]
  | none => formatted

/-- Formatting changes nothing but white space outside tokens. -/
def KeepsTokens : Prop :=
  significant (formatTokens layout source tokens) =
    significant (sourceGlyphs source tokens 0 source.length)

end Format

/-! ### Parts of the source -/

theorem significant_append (a b : List Glyph) :
    significant (a ++ b) = significant a ++ significant b := by
  simp [significant]

theorem significant_eq_nil {glyphs : List Glyph}
    (white : ∀ g ∈ glyphs, g.inToken = false ∧ isWhitespace g.char) : significant glyphs = [] := by
  simp only [significant, List.map_eq_nil_iff, List.filter_eq_nil_iff]
  intro g mem
  obtain ⟨outside, blank⟩ := white g mem
  simp [outside, blank]

theorem significant_token (text : List Char) :
    significant (text.map (⟨·, true⟩)) = text := by
  simp [significant, List.filter_map, Function.comp_def]

section Parts

variable {source : List Char} {tokens : List Token}

theorem sourceGlyphs_append {a b c : Nat} (first : a ≤ b) (second : b ≤ c) :
    sourceGlyphs source tokens a b ++ sourceGlyphs source tokens b c =
      sourceGlyphs source tokens a c := by
  have split : c - a = (b - a) + (c - b) := by omega
  have middle : b = a + (b - a) := by omega
  rw [sourceGlyphs, sourceGlyphs, sourceGlyphs, ← List.map_append, split, ← List.range'_append]
  simp [← middle]

theorem map_char_sourceGlyphs {a b : Nat} (le : b ≤ source.length) :
    (sourceGlyphs source tokens a b).map Glyph.char = (source.drop a).take (b - a) := by
  refine List.ext_getElem ?_ fun i h h' => ?_
  · simp [sourceGlyphs]
    omega
  · simp only [List.length_map, sourceGlyphs, List.length_range'] at h
    simp [sourceGlyphs, List.getElem?_eq_getElem (show a + i < source.length by omega)]

variable (wf : TokensOf source tokens)
include wf

/-- The source between two tokens is white space. -/
theorem significant_gap {idx a b : Nat} (le : idx ≤ tokens.length)
    (after : endBefore tokens idx ≤ a) (before : b ≤ startAt source tokens idx) :
    significant (sourceGlyphs source tokens a b) = [] := by
  apply significant_eq_nil
  intro g mem
  obtain ⟨pos, within, rfl⟩ := List.mem_map.mp mem
  have within := List.mem_range'_1.mp within
  have outside : inToken tokens pos = false := by
    by_contra inside
    simp only [inToken, Bool.not_eq_false, List.any_eq_true, Bool.and_eq_true,
      decide_eq_true_eq] at inside
    obtain ⟨token, member, lower, upper⟩ := inside
    obtain ⟨k, less, rfl⟩ := List.getElem_of_mem member
    have found := List.getElem?_eq_getElem less
    rcases Nat.lt_or_ge k idx with earlier | later
    · have := wf.endBefore_mono (Nat.succ_le_of_lt earlier) le
      rw [endBefore_succ found] at this
      omega
    · have := wf.startAt_mono later less.le
      rw [startAt_eq found] at this
      omega
  refine ⟨outside, ?_⟩
  simp only [List.getD_eq_getElem?_getD]
  cases char : source[pos]? with
  | none => decide
  | some c =>
    by_contra solid
    have := wf.covers pos c char (by simpa using solid)
    simp [outside] at this

theorem significant_at {idx : Nat} {token : Token} (found : tokens[idx]? = some token) :
    significant (sourceGlyphs source tokens (endBefore tokens idx) (endBefore tokens (idx + 1))) =
      token.text := by
  have less : idx < tokens.length := (List.getElem?_eq_some_iff.mp found).1
  have member : token ∈ tokens := List.mem_of_getElem? found
  have gap := wf.endBefore_le less.le
  have size := wf.startAt_lt less
  rw [← sourceGlyphs_append gap size.le, significant_append,
    significant_gap wf less.le le_rfl le_rfl, List.nil_append, startAt_eq found,
    endBefore_succ found]
  have inside : ∀ g ∈ sourceGlyphs source tokens token.startByte token.endByte,
      g.inToken = true := by
    intro g mem
    obtain ⟨pos, within, rfl⟩ := List.mem_map.mp mem
    have within := List.mem_range'_1.mp within
    simp only [inToken, List.any_eq_true, Bool.and_eq_true, decide_eq_true_eq]
    exact ⟨token, member, within.1, by omega⟩
  rw [significant, List.filter_eq_self.mpr (fun g mem => by simp [inside g mem]),
    map_char_sourceGlyphs (wf.inside token member), wf.text token member]

/-- A part of the source that reaches into a token is not white space. -/
theorem significant_ne_nil {idx a : Nat} (less : idx < tokens.length)
    (before : a < endBefore tokens (idx + 1)) :
    significant (sourceGlyphs source tokens a (endBefore tokens (idx + 1))) ≠ [] := by
  have found := List.getElem?_eq_getElem less
  have size := wf.startAt_lt less
  rw [startAt_eq found] at size
  let last := endBefore tokens (idx + 1) - 1
  have inside : inToken tokens last = true := by
    simp only [inToken, List.any_eq_true, Bool.and_eq_true, decide_eq_true_eq]
    have := endBefore_succ found
    exact ⟨_, List.getElem_mem less, by omega, by omega⟩
  have member : (⟨source.getD last ' ', inToken tokens last⟩ : Glyph) ∈
      sourceGlyphs source tokens a (endBefore tokens (idx + 1)) :=
    List.mem_map.mpr ⟨last, List.mem_range'_1.mpr (by omega), rfl⟩
  simp only [significant, ne_eq, List.map_eq_nil_iff, List.filter_eq_nil_iff]
  intro none
  exact none _ member (by simp [inside])

end Parts

/-! ### The loop -/

/-- How what is written relates to the tokens: the ranges that start behind the tokens
before them are copied as they are, and any other one repeats something. -/
structure Written (tokens : List Token) (ranges : List RawRange) (whole written : List Char) :
    Prop where
  exact : (∀ r ∈ ranges, endBefore tokens r.startIdx ≤ r.rawStart) → written = whole
  atLeast : whole.length ≤ written.length
  more : (∃ r ∈ ranges, r.rawStart < endBefore tokens r.startIdx) → whole.length < written.length

namespace Written

variable {tokens : List Token} {ranges : List RawRange} {whole written : List Char}

theorem refl (text : List Char) : Written tokens [] text text :=
  ⟨fun _ => rfl, le_rfl, by simp⟩

theorem append (h : Written tokens ranges whole written) (text : List Char) :
    Written tokens ranges (text ++ whole) (text ++ written) := by
  refine ⟨fun all => by rw [h.exact all], ?_, fun some => ?_⟩
  · simpa using h.atLeast
  · simpa using h.more some

theorem range (h : Written tokens ranges whole written) {range : RawRange} {again : List Char}
    (once : again = [] ↔ endBefore tokens range.startIdx ≤ range.rawStart) (text : List Char) :
    Written tokens (range :: ranges) (text ++ whole) (again ++ text ++ written) := by
  refine ⟨fun all => ?_, ?_, ?_⟩
  · obtain ⟨first, rest⟩ := List.forall_mem_cons.mp all
    rw [once.mpr first, h.exact rest, List.nil_append]
  · have := h.atLeast
    simp only [List.length_append]
    omega
  · rintro ⟨r, mem, back⟩
    simp only [List.length_append]
    rcases List.mem_cons.mp mem with rfl | mem
    · have repeats : again ≠ [] := fun none => absurd (once.mp none) (Nat.not_le_of_lt back)
      have := List.length_pos_iff.mpr repeats
      have := h.atLeast
      omega
    · have := h.more ⟨r, mem, back⟩
      omega

end Written

/-- The token that has been written last before an index. -/
def previousAt (tokens : List Token) : Nat → Option Token
  | 0 => none
  | idx + 1 => tokens[idx]?

section Loop

variable {σ : Type} {layout : Layout σ} {source : List Char} {tokens : List Token}

theorem rawText_eq {range : RawRange} (le : range.startIdx ≤ tokens.length) :
    rawText source tokens (previousAt tokens range.startIdx) range =
      sourceGlyphs source tokens (min (endBefore tokens range.startIdx) range.rawStart)
        range.rawEnd := by
  cases start : range.startIdx with
  | zero => simp [rawText, previousAt, endBefore]
  | succ idx =>
    have found := List.getElem?_eq_getElem (show idx < tokens.length by omega)
    rw [endBefore_succ found]
    simp only [rawText, previousAt, found]
    split
    · next less => rw [min_eq_left less.le]
    · next le => rw [min_eq_right (Nat.le_of_not_lt le)]

variable (wf : TokensOf source tokens)
include wf

/-- The copy of a range holds its tokens, after what it repeats. -/
theorem significant_raw {range : RawRange} (merged : range.Merged source tokens) :
    ∃ again, (again = [] ↔ endBefore tokens range.startIdx ≤ range.rawStart) ∧
      significant (rawText source tokens (previousAt tokens range.startIdx) range) =
        again ++ significant (sourceGlyphs source tokens (endBefore tokens range.startIdx)
          (endBefore tokens (range.endIdx + 1))) := by
  have exist : range.startIdx < tokens.length := lt_of_le_of_lt merged.ordered merged.exist
  have first := min_le_left (endBefore tokens range.startIdx) range.rawStart
  have second := wf.endBefore_mono (Nat.le_succ_of_le merged.ordered) merged.exist
  refine ⟨significant (sourceGlyphs source tokens
    (min (endBefore tokens range.startIdx) range.rawStart) (endBefore tokens range.startIdx)),
    ?_, ?_⟩
  · constructor
    · intro none
      by_contra back
      cases start : range.startIdx with
      | zero => simp [start, endBefore] at back
      | succ idx =>
        rw [start] at none back
        refine significant_ne_nil wf (show idx < tokens.length by omega) ?_ none
        omega
    · intro le
      rw [min_eq_left le]
      simp [sourceGlyphs, significant]
  · rw [rawText_eq exist.le, ← sourceGlyphs_append (first.trans second) merged.holds,
      ← sourceGlyphs_append first second, significant_append, significant_append,
      significant_gap wf merged.exist le_rfl merged.ends, List.append_nil]

omit wf in
theorem separatorDoc_white (separator : Separator) (indent indentWidth : Nat) :
    significant ((separatorDoc separator indent indentWidth).map (⟨·, false⟩)) = [] := by
  apply significant_eq_nil
  intro g mem
  obtain ⟨c, written, rfl⟩ := List.mem_map.mp mem
  refine ⟨rfl, ?_⟩
  have : c = '\n' ∨ c = ' ' := by
    cases separator <;> simp [separatorDoc, linesDoc] at written <;> tauto
  rcases this with rfl | rfl <;> decide

omit wf in
/-- After the last token there is nothing left to write. -/
theorem ranges_eq_nil {ranges : List RawRange} (merged : ∀ r ∈ ranges, r.Merged source tokens)
    (later : ∀ r ∈ ranges, tokens.length ≤ r.startIdx) : ranges = [] := by
  cases ranges with
  | nil => rfl
  | cons range rest =>
    have fits := merged range List.mem_cons_self
    have := later range List.mem_cons_self
    have := fits.ordered
    have := fits.exist
    omega

theorem formatLoop_written {fuel idx : Nat} {ranges : List RawRange} {state : σ}
    (enough : tokens.length ≤ idx + fuel) (le : idx ≤ tokens.length)
    (merged : ∀ r ∈ ranges, r.Merged source tokens)
    (apart : ranges.Pairwise fun a b => a.endIdx < b.startIdx)
    (later : ∀ r ∈ ranges, idx ≤ r.startIdx) :
    Written tokens ranges
      (significant (sourceGlyphs source tokens (endBefore tokens idx)
        (endBefore tokens tokens.length)))
      (significant (formatLoop layout source tokens fuel idx ranges (previousAt tokens idx)
        state)) := by
  induction fuel generalizing idx ranges state with
  | zero =>
    obtain rfl : idx = tokens.length := by omega
    obtain rfl := ranges_eq_nil merged later
    simpa [sourceGlyphs, formatLoop, significant] using Written.refl []
  | succ fuel ih =>
    obtain rfl | less := Nat.eq_or_lt_of_le le
    · obtain rfl := ranges_eq_nil merged later
      simpa [sourceGlyphs, formatLoop, significant] using Written.refl []
    have found := List.getElem?_eq_getElem less
    have bound := wf.endBefore_mono less le_rfl
    cases next : ranges.head?.filter fun range => range.startIdx = idx with
    | some range =>
      -- a range starts here
      obtain ⟨head, start⟩ := Option.filter_eq_some_iff.mp next
      obtain rfl : range.startIdx = idx := by simpa using start
      obtain ⟨rest, rfl⟩ := List.head?_eq_some_iff.mp head
      obtain ⟨fits, fits'⟩ := List.forall_mem_cons.mp merged
      obtain ⟨beyond, apart'⟩ := List.pairwise_cons.mp apart
      obtain ⟨again, once, copied⟩ := significant_raw wf fits
      have enough' : tokens.length ≤ range.endIdx + 1 + fuel := by
        have := fits.ordered
        omega
      have tail := @ih (range.endIdx + 1) rest (layout.afterRaw state
        ((rawText source tokens (previousAt tokens range.startIdx) range).map Glyph.char)
        range) enough' fits.exist fits' apart' beyond
      have whole := tail.range once (significant (sourceGlyphs source tokens
        (endBefore tokens range.startIdx) (endBefore tokens (range.endIdx + 1))))
      rw [← copied, ← significant_append, ← significant_append, sourceGlyphs_append] at whole
      · simp only [formatLoop, found, next]
        exact whole
      · exact wf.endBefore_mono (Nat.le_succ_of_le fits.ordered) fits.exist
      · exact wf.endBefore_mono fits.exist le_rfl
    | none =>
      have behind : ∀ r ∈ ranges, idx + 1 ≤ r.startIdx := by
        cases ranges with
        | nil => simp
        | cons range rest =>
          have other : range.startIdx ≠ idx := by
            simpa [Option.filter_some] using next
          have := later range List.mem_cons_self
          have := (merged range List.mem_cons_self).ordered
          refine List.forall_mem_cons.mpr ⟨by omega, fun r mem => ?_⟩
          have := (List.pairwise_cons.mp apart).1 r mem
          omega
      let separator := separate layout source tokens state (previousAt tokens idx) idx
      have tail := @ih (idx + 1) ranges (layout.afterToken state idx separator) (by omega) less
        merged apart behind
      have whole := tail.append tokens[idx].text
      rw [← significant_at wf found, ← significant_append,
        sourceGlyphs_append (wf.endBefore_mono (Nat.le_succ idx) less) bound,
        significant_at wf found] at whole
      simp only [formatLoop, found, next, significant_append, significant_token]
      have white : significant ((match separator with
          | some (separator, indent) => separatorDoc separator indent layout.indentWidth
          | none => []).map (⟨·, false⟩)) = [] := by
        cases separator with
        | none => rfl
        | some sep => exact separatorDoc_white sep.1 sep.2 layout.indentWidth
      have last : previousAt tokens (idx + 1) = some tokens[idx] := found
      rw [last] at whole
      rw [white, List.nil_append]
      exact whole

theorem significant_source : significant (sourceGlyphs source tokens 0 source.length) =
    significant (sourceGlyphs source tokens 0 (endBefore tokens tokens.length)) := by
  have ends := wf.endBefore_le le_rfl
  rw [startAt_length] at ends
  rw [← sourceGlyphs_append (Nat.zero_le _) ends, significant_append,
    significant_gap wf le_rfl le_rfl startAt_length.ge, List.append_nil]

omit wf in
theorem significant_formatTokens :
    significant (formatTokens layout source tokens) =
      significant (formatLoop layout source tokens tokens.length 0
        (rawFormatRanges source tokens) none layout.initial) := by
  simp only [formatTokens]
  split
  · split
    · rfl
    · have newline : significant [⟨'\n', false⟩] = [] := by decide
      rw [significant_append, newline, List.append_nil]
  · rfl

theorem keepsTokens_iff_ranges (layout : Layout σ) :
    KeepsTokens layout source tokens ↔
      ∀ m ∈ rawFormatRanges source tokens, endBefore tokens m.startIdx ≤ m.rawStart := by
  have result := rawFormatRanges_result wf
  have loop := @formatLoop_written σ layout source tokens wf tokens.length 0
    (rawFormatRanges source tokens) layout.initial (by omega) (Nat.zero_le _) result.all
    result.apart (fun _ _ => Nat.zero_le _)
  rw [KeepsTokens, significant_source wf, significant_formatTokens]
  constructor
  · intro same m mem
    by_contra back
    have more := loop.more ⟨m, mem, Nat.lt_of_not_le back⟩
    exact absurd (congrArg List.length same) (ne_of_gt more)
  · intro all
    exact loop.exact all

/-- Formatting keeps the tokens exactly if no copied range starts on a line, or in a token,
that is not copied with it. -/
theorem keepsTokens_iff_separated (layout : Layout σ) :
    KeepsTokens layout source tokens ↔ Separated source tokens :=
  (keepsTokens_iff_ranges wf layout).trans (separated_iff wf).symm

end Loop

/-! ### A configuration item behind a declaration -/

/-- Tokens that cover a text, checked position by position. -/
theorem TokensOf.of_positions {source : List Char} {tokens : List Token}
    (nonempty : ∀ t ∈ tokens, t.startByte < t.endByte)
    (inside : ∀ t ∈ tokens, t.endByte ≤ source.length)
    (text : ∀ t ∈ tokens, t.text = (source.drop t.startByte).take (t.endByte - t.startByte))
    (ordered : tokens.Pairwise fun a b => a.endByte ≤ b.startByte)
    (covers : ∀ i < source.length, isWhitespace (source.getD i ' ') || inToken tokens i) :
    TokensOf source tokens where
  nonempty := nonempty
  inside := inside
  text := text
  ordered := ordered
  covers i c found solid := by
    have less := (List.getElem?_eq_some_iff.mp found).1
    simpa [List.getD_eq_getElem?_getD, found, solid] using covers i less

/-- `import a;` and a configuration item, behind it or on a line of its own. -/
def importThenConfig (separator : Char) : List Char :=
  ['i', 'm', 'p', 'o', 'r', 't', ' ', 'a', ';', separator, '#', 'i', 'f', ' ', 'h', 'a', 's', '_',
    'f', 'e', 'a', 't', 'u', 'r', 'e', '(', '"', 'x', '"', ')', '\n', '#', 'e', 'n', 'd', 'i', 'f']

def importThenConfigTokens : List Token :=
  [⟨['i', 'm', 'p', 'o', 'r', 't'], false, false, 0, 6⟩, ⟨['a'], false, false, 7, 8⟩,
    ⟨[';'], false, false, 8, 9⟩, ⟨['#', 'i', 'f'], false, true, 10, 13⟩,
    ⟨['h', 'a', 's', '_', 'f', 'e', 'a', 't', 'u', 'r', 'e'], false, true, 14, 25⟩,
    ⟨['('], false, true, 25, 26⟩, ⟨['"', 'x', '"'], false, true, 26, 29⟩,
    ⟨[')'], false, true, 29, 30⟩, ⟨['#', 'e', 'n', 'd', 'i', 'f'], false, true, 31, 37⟩]

theorem keepsTokens_lines : TokensOf (importThenConfig '\n') importThenConfigTokens ∧
    ∀ layout : Layout Unit,
      KeepsTokens layout (importThenConfig '\n') importThenConfigTokens := by
  have wf : TokensOf (importThenConfig '\n') importThenConfigTokens :=
    .of_positions (by decide) (by decide) (by decide) (by decide) (by decide)
  refine ⟨wf, fun layout => ?_⟩
  exact (keepsTokens_iff_separated wf layout).mpr ((separated_iff wf).mpr (by decide))

/-- On one line the copy of the configuration item begins with the import, which has been
written before it. -/
theorem import_repeated : TokensOf (importThenConfig ' ') importThenConfigTokens ∧
    ∀ layout : Layout Unit,
      ¬ KeepsTokens layout (importThenConfig ' ') importThenConfigTokens := by
  have wf : TokensOf (importThenConfig ' ') importThenConfigTokens :=
    .of_positions (by decide) (by decide) (by decide) (by decide) (by decide)
  refine ⟨wf, fun layout keeps => ?_⟩
  have := (keepsTokens_iff_ranges wf layout).mp keeps
  revert this
  decide

end Ciel.Formatter
