import Mathlib.Data.List.Sort
import Mathlib.Order.Basic

/-!
# Verbatim ranges of the formatter

The formatter lays a file out token by token, except for ranges of tokens that it copies
from the source: from a comment `ciel-format off` to the next `ciel-format on`, and the
configuration items (`disabled_format_ranges`, `config_format_ranges`). The copy of a range
starts at the beginning of a line where the source is indented before it, and ranges that
share a token are merged (`raw_format_ranges`).

A token is what the external parser delivers: its place and text, whether it is a comment
and whether it belongs to a configuration item. Positions count characters.
-/

namespace Ciel.Formatter

variable {idx : Nat}

/-- `char::is_whitespace`. -/
def isWhitespace (c : Char) : Bool :=
  let n := c.toNat
  (9 ≤ n && n ≤ 13) || n == 32 || n == 0x85 || n == 0xA0 || n == 0x1680 ||
    (0x2000 ≤ n && n ≤ 0x200A) || n == 0x2028 || n == 0x2029 || n == 0x202F || n == 0x205F ||
    n == 0x3000

structure Token where
  text : List Char
  isComment : Bool
  inConfigItem : Bool
  startByte : Nat
  endByte : Nat
  deriving DecidableEq, Repr

inductive FormatDirective
  | off
  | on
  deriving DecidableEq, Repr

def containsText (text pattern : List Char) : Bool :=
  text.tails.any fun tail => pattern.isPrefixOf tail

def formatDirective (token : Token) : Option FormatDirective :=
  if token.isComment = false then none
  else
    let text := token.text.map Char.toLower
    if containsText text "ciel-format off".toList then some .off
    else if containsText text "ciel-format on".toList then some .on
    else none

/-! ### Lines -/

/-- The position after the last line break before a position. -/
def lineStart (source : List Char) (byte : Nat) : Nat :=
  match (List.range byte).reverse.find? fun i => source[i]? == some '\n' with
  | some newline => newline + 1
  | none => 0

theorem lineStart_le (source : List Char) (byte : Nat) : lineStart source byte ≤ byte := by
  unfold lineStart
  split
  next newline found =>
    have := List.mem_of_find?_eq_some found
    simpa [Nat.succ_le_iff] using this
  · exact Nat.zero_le byte

def protectedRangeStart (source : List Char) (byte : Nat) : Nat :=
  let start := lineStart source byte
  if ((source.drop start).take (byte - start)).all isWhitespace then start else byte

theorem protectedRangeStart_le (source : List Char) (byte : Nat) :
    protectedRangeStart source byte ≤ byte := by
  simp only [protectedRangeStart]
  split
  · exact lineStart_le source byte
  · exact le_rfl

/-! ### Ranges -/

/-- Tokens that are copied (`DisabledRange`): the first and the last of them, and the part
of the source. -/
structure RawRange where
  startIdx : Nat
  endIdx : Nat
  rawStart : Nat
  rawEnd : Nat
  deriving DecidableEq, Repr

/-- The loop of `disabled_format_ranges`, with the start of an open range. -/
def disabledFrom (source : List Char) : Nat → Option (Nat × Nat) → List Token → List RawRange
  | idx, some (startIdx, rawStart), [] => [⟨startIdx, idx - 1, rawStart, source.length⟩]
  | _, none, [] => []
  | idx, start, token :: tokens =>
    match formatDirective token, start with
    | some .off, none =>
      disabledFrom source (idx + 1)
        (some (idx, protectedRangeStart source token.startByte)) tokens
    | some .on, some (startIdx, rawStart) =>
      ⟨startIdx, idx, rawStart, token.endByte⟩ :: disabledFrom source (idx + 1) none tokens
    | _, _ => disabledFrom source (idx + 1) start tokens

def disabledFormatRanges (source : List Char) (tokens : List Token) : List RawRange :=
  disabledFrom source 0 none tokens

/-- The loop of `config_format_ranges`, with the range of the configuration tokens just
before, which the source keeps as its start and its last token. -/
def configFrom (source : List Char) : Nat → Option RawRange → List Token → List RawRange
  | _, some range, [] => [range]
  | _, none, [] => []
  | idx, run, token :: tokens =>
    if token.inConfigItem then
      let range := match run with
        | some range => { range with endIdx := idx, rawEnd := token.endByte }
        | none => ⟨idx, idx, lineStart source token.startByte, token.endByte⟩
      configFrom source (idx + 1) (some range) tokens
    else
      match run with
      | some range => range :: configFrom source (idx + 1) none tokens
      | none => configFrom source (idx + 1) none tokens

def configFormatRanges (source : List Char) (tokens : List Token) : List RawRange :=
  configFrom source 0 none tokens

/-- A range that starts in `last`, added to it. -/
def RawRange.merge (last range : RawRange) : RawRange where
  startIdx := last.startIdx
  endIdx := max last.endIdx range.endIdx
  rawStart := min last.rawStart range.rawStart
  rawEnd := max last.rawEnd range.rawEnd

def mergeFrom (last : RawRange) : List RawRange → List RawRange
  | [] => [last]
  | range :: ranges =>
    if range.startIdx ≤ last.endIdx then mergeFrom (last.merge range) ranges
    else last :: mergeFrom range ranges

def mergeRanges : List RawRange → List RawRange
  | [] => []
  | range :: ranges => mergeFrom range ranges

/-- The ranges before they are merged, in the order of their first tokens. -/
def sortedRanges (source : List Char) (tokens : List Token) : List RawRange :=
  (disabledFormatRanges source tokens ++ configFormatRanges source tokens).insertionSort
    fun a b => a.startIdx ≤ b.startIdx

def rawFormatRanges (source : List Char) (tokens : List Token) : List RawRange :=
  mergeRanges (sortedRanges source tokens)

/-! ### Tokens of a source text -/

/-- Whether a position lies in a token. -/
def inToken (tokens : List Token) (pos : Nat) : Bool :=
  tokens.any fun t => t.startByte ≤ pos && pos < t.endByte

/-- What the external parser delivers: tokens in the order of the source that do not
overlap and leave out white space only. -/
structure TokensOf (source : List Char) (tokens : List Token) : Prop where
  nonempty : ∀ t ∈ tokens, t.startByte < t.endByte
  inside : ∀ t ∈ tokens, t.endByte ≤ source.length
  text : ∀ t ∈ tokens, t.text = (source.drop t.startByte).take (t.endByte - t.startByte)
  ordered : tokens.Pairwise fun a b => a.endByte ≤ b.startByte
  covers : ∀ i c, source[i]? = some c → isWhitespace c = false → inToken tokens i

/-- Where the token with an index starts, or the source ends. -/
def startAt (source : List Char) (tokens : List Token) (idx : Nat) : Nat :=
  match tokens[idx]? with
  | some token => token.startByte
  | none => source.length

/-- Where the token before an index ends. -/
def endBefore (tokens : List Token) : Nat → Nat
  | 0 => 0
  | idx + 1 =>
    match tokens[idx]? with
    | some token => token.endByte
    | none => 0

section Places

variable {source : List Char} {tokens : List Token}

theorem startAt_eq {token : Token} (found : tokens[idx]? = some token) :
    startAt source tokens idx = token.startByte := by
  simp [startAt, found]

theorem startAt_length : startAt source tokens tokens.length = source.length := by
  simp [startAt]

theorem endBefore_succ {token : Token} (found : tokens[idx]? = some token) :
    endBefore tokens (idx + 1) = token.endByte := by
  simp [endBefore, found]

variable (wf : TokensOf source tokens)
include wf

theorem TokensOf.startAt_lt (lt : idx < tokens.length) :
    startAt source tokens idx < endBefore tokens (idx + 1) := by
  have found := List.getElem?_eq_getElem lt
  rw [startAt_eq found, endBefore_succ found]
  exact wf.nonempty _ (List.getElem_mem lt)

theorem TokensOf.endBefore_le (le : idx ≤ tokens.length) :
    endBefore tokens idx ≤ startAt source tokens idx := by
  cases idx with
  | zero => exact Nat.zero_le _
  | succ idx =>
    have before := List.getElem?_eq_getElem (Nat.lt_of_succ_le le)
    rw [endBefore_succ before]
    rcases Nat.lt_or_eq_of_le le with lt | last
    · rw [startAt_eq (List.getElem?_eq_getElem lt)]
      exact List.pairwise_iff_getElem.mp wf.ordered idx (idx + 1) _ lt (Nat.lt_succ_self idx)
    · rw [last, startAt_length]
      exact wf.inside _ (List.getElem_mem _)

theorem TokensOf.startAt_mono {i j : Nat} (le : i ≤ j) (bound : j ≤ tokens.length) :
    startAt source tokens i ≤ startAt source tokens j := by
  induction j, le using Nat.le_induction with
  | base => exact le_rfl
  | succ j _ ih =>
    have first := ih (Nat.le_of_succ_le bound)
    have step := wf.startAt_lt (Nat.lt_of_succ_le bound)
    have next := wf.endBefore_le bound
    omega

theorem TokensOf.endBefore_mono {i j : Nat} (le : i ≤ j) (bound : j ≤ tokens.length) :
    endBefore tokens i ≤ endBefore tokens j := by
  rcases Nat.lt_or_eq_of_le le with lt | rfl
  · obtain ⟨j, rfl⟩ : ∃ k, j = k + 1 := ⟨j - 1, by omega⟩
    have first := wf.endBefore_le (le_trans le bound)
    have middle := wf.startAt_mono (Nat.le_of_lt_succ lt) (Nat.le_of_succ_le bound)
    have last := wf.startAt_lt (Nat.lt_of_succ_le bound)
    omega
  · exact le_rfl

end Places

/-! ### What the ranges cover -/

/-- A range of tokens that exist, whose part of the source holds at least these and reaches
no later token. It may reach back into earlier ones. -/
structure RawRange.Fits (source : List Char) (tokens : List Token) (range : RawRange) : Prop where
  ordered : range.startIdx ≤ range.endIdx
  exist : range.endIdx < tokens.length
  start : range.rawStart ≤ startAt source tokens range.startIdx
  holds : endBefore tokens (range.endIdx + 1) ≤ range.rawEnd
  ends : range.rawEnd ≤ startAt source tokens (range.endIdx + 1)

theorem RawRange.Fits.merge {source : List Char} {tokens : List Token}
    (wf : TokensOf source tokens) {last range : RawRange} (fits : last.Fits source tokens)
    (fits' : range.Fits source tokens) : (last.merge range).Fits source tokens where
  ordered := le_trans fits.ordered (le_max_left _ _)
  exist := max_lt fits.exist fits'.exist
  start := le_trans (min_le_left _ _) fits.start
  holds := by
    rcases le_total last.endIdx range.endIdx with le | le
    · simp only [RawRange.merge, max_eq_right le]
      exact le_trans fits'.holds (le_max_right _ _)
    · simp only [RawRange.merge, max_eq_left le]
      exact le_trans fits.holds (le_max_left _ _)
  ends := by
    have bound : max last.endIdx range.endIdx + 1 ≤ tokens.length := max_lt fits.exist fits'.exist
    refine max_le (le_trans fits.ends ?_) (le_trans fits'.ends ?_)
    · exact wf.startAt_mono (Nat.succ_le_succ (le_max_left _ _)) bound
    · exact wf.startAt_mono (Nat.succ_le_succ (le_max_right _ _)) bound

end Ciel.Formatter
