import Ciel.Std.Json.Exact

/-!
# The reader accepts the JSON values

The recursive part of the reader. A step lemma for each of the three mutually recursive
functions says that it follows the grammar if the functions it calls do; induction on the fuel
gives the whole. A value needs twice the length of the input as fuel, since the loop over the
elements of an array calls the reader of values before it has read anything.
-/

namespace Ciel.Json

open Library Reading Cursor

variable {n : Nat}
variable {s w : Bytes} {members items : List Value} {fuel : Nat}

/-! ## What may stand next to a value -/

/-- A number has to be followed by a byte that does not continue it. -/
def Follows : Value → Bytes → Prop
  | .number _, t => ¬ starts isNumberTail t
  | _, _ => True

theorem Space.not_tail {c : UInt8} (space : Space c) : ¬ isNumberTail c := by
  rcases space with rfl | rfl | rfl | rfl <;> decide

theorem follows_separator {v : Value} {t : Bytes} {c : UInt8} (spaces : Spaces w)
    (other : ¬ isNumberTail c) : Follows v (w ++ c :: t) := by
  cases v with
  | number =>
    cases w with
    | nil => exact other
    | cons x w => exact (spaces x List.mem_cons_self).not_tail
  | _ => trivial

theorem follows_end {v : Value} (spaces : Spaces w) : Follows v w := by
  cases v with
  | number =>
    cases w with
    | nil => simp [Follows]
    | cons x w => exact (spaces x List.mem_cons_self).not_tail
  | _ => trivial

theorem NumberText.head (number : NumberText s) :
    ∃ c s', s = c :: s' ∧ (c = byte '-' ∨ Digit c) := by
  obtain @⟨sign, int, frac, exp, signs, integer, -, -⟩ := number
  rcases signs with rfl | rfl
  · obtain ⟨c, s', rfl, digit⟩ := integer.head
    exact ⟨c, _, rfl, .inr digit⟩
  · exact ⟨_, _, rfl, .inl rfl⟩

/-- The bytes with which no value starts. -/
def isBreak (c : UInt8) : Bool := isJsonWs c || c == byte ']' || c == byte '}'

theorem NumberText.not_starts {t : Bytes} {test : UInt8 → Bool} (number : NumberText s)
    (minus : test (byte '-') = false) (digits : ∀ x, test x → x < byte '0' ∨ byte '9' < x) :
    ¬ starts test (s ++ t) := by
  obtain ⟨c, s', rfl, rfl | digit⟩ := number.head
  · rw [List.cons_append, starts_cons, minus]
    simp
  · intro passes
    exact digit.ne (digits c passes) rfl

theorem ValueText.not_starts_break {t : Bytes} {v : Value} (text : ValueText s v) :
    ¬ starts isBreak (s ++ t) := by
  cases text with
  | number number =>
    refine number.not_starts rfl ?_
    intro x passes
    simp only [isBreak, isJsonWs, Bool.or_eq_true, beq_iff_eq] at passes
    rcases passes with ((((rfl | rfl) | rfl) | rfl) | rfl) | rfl <;> decide
  | string string => cases string; simp +decide
  | _ => simp +decide

theorem not_starts_of_break {test : UInt8 → Bool} (stops : ¬ starts isBreak s)
    (breaks : ∀ c, test c → isBreak c) : ¬ starts test s := by
  cases s with
  | nil => simp
  | cons c s => exact fun passes => stops (breaks c passes)

theorem ws_breaks (c : UInt8) (space : isJsonWs c) : isBreak c := by
  simp [isBreak, space]

theorem spaces_append {w' : Bytes} : Spaces (w ++ w') ↔ Spaces w ∧ Spaces w' := by
  simp [Spaces, or_imp, forall_and]

theorem spaces_nil : Spaces [] := by
  simp [Spaces]

/-! ## The elements of arrays and objects -/

/-- Elements in brackets. White space before them belongs to the first one, and behind it
stands nothing that could end them. -/
structure Elements (close : UInt8) (Text : Bytes → List Value → Prop) : Prop where
  closes : close = byte ']' ∨ close = byte '}'
  spaced : ∀ {w s : Bytes} {values : List Value}, Spaces w → Text s values → Text (w ++ s) values
  strip : ∀ {s : Bytes} {values : List Value}, Text s values →
    ∃ w s', s = w ++ s' ∧ Spaces w ∧ Text s' values ∧ ∀ t, ¬ starts isBreak (s' ++ t)

theorem itemsText_elements : Elements (byte ']') ItemsText where
  closes := .inl rfl
  spaced spaces text := by
    cases text with
    | one spaces' value rest =>
      rw [← List.append_assoc]
      exact .one (spaces_append.2 ⟨spaces, spaces'⟩) value rest
    | more spaces' value rest more =>
      rw [← List.append_assoc]
      exact .more (spaces_append.2 ⟨spaces, spaces'⟩) value rest more
  strip text := by
    cases text with
    | @one w s w' v spaces value spaces' =>
      refine ⟨w, s ++ w', rfl, spaces, .one spaces_nil value spaces', ?_⟩
      intro t
      rw [List.append_assoc]
      exact value.not_starts_break
    | @more w s w' rest v items spaces value spaces' more =>
      refine ⟨w, _, rfl, spaces, .more spaces_nil value spaces' more, ?_⟩
      intro t
      rw [List.append_assoc]
      exact value.not_starts_break

theorem membersText_elements : Elements (byte '}') MembersText where
  closes := .inr rfl
  spaced spaces text := by
    cases text with
    | one spaces' key one two value three =>
      rw [← List.append_assoc]
      exact .one (spaces_append.2 ⟨spaces, spaces'⟩) key one two value three
    | more spaces' key one two value three more =>
      rw [← List.append_assoc]
      exact .more (spaces_append.2 ⟨spaces, spaces'⟩) key one two value three more
  strip text := by
    cases text with
    | @one w k w₁ w₂ s w₃ name v spaces key one two value three =>
      refine ⟨w, _, rfl, spaces, .one spaces_nil key one two value three, ?_⟩
      cases key
      simp +decide
    | @more w k w₁ w₂ s w₃ rest name v members spaces key one two value three more =>
      refine ⟨w, _, rfl, spaces, .more spaces_nil key one two value three more, ?_⟩
      cases key
      simp +decide

/-- White space and a value. -/
def valueGrammar (s : Bytes) (v : Value) (t : Bytes) : Prop :=
  ∃ w text, s = w ++ text ∧ Spaces w ∧ ValueText text v ∧ Follows v t

/-- The elements that are still to come, and the bracket that closes them. -/
def listGrammar (close : UInt8) (Text : Bytes → List Value → Prop) (before : List Value) (s : Bytes)
    (all : List Value) (_ : Bytes) : Prop :=
  ∃ text more, s = text ++ [close] ∧ Text text more ∧ all = before ++ more

abbrev itemsGrammar := listGrammar (byte ']') ItemsText

abbrev membersGrammar := listGrammar (byte '}') MembersText

/-- What follows an element: a comma and more elements, or the bracket. -/
def tailGrammar (close : UInt8) (Text : Bytes → List Value → Prop) (before : List Value) (s : Bytes)
    (all : List Value) (t : Bytes) : Prop :=
  (∃ rest, s = byte ',' :: rest ∧ listGrammar close Text before rest all t) ∨
    s = [close] ∧ all = before

namespace Elements

variable {close : UInt8} {Text : Bytes → List Value → Prop} {before : List Value}
variable {p : Reads (List Value)} (elements : Elements close Text)
include elements

/-- Behind white space only what follows it counts. -/
theorem skipWs {G : Bytes → List Value → Bytes → Prop} (scans : Scans n p G)
    (same : ∀ s a t, ¬ starts isJsonWs (s ++ t) → (G s a t ↔ listGrammar close Text before s a t)) :
    Scans n (skipWs >>= fun _ => p) (listGrammar close Text before) := by
  refine (skipWs_scans.bind fun _ => scans).congr ?_
  intro s a t
  constructor
  · rintro ⟨w, _, s', rfl, ⟨spaces, stops⟩, found⟩
    obtain ⟨text, more, rfl, inside, rfl⟩ := (same s' a t stops).1 found
    exact ⟨w ++ text, more, by rw [List.append_assoc], elements.spaced spaces inside, rfl⟩
  · rintro ⟨_, more, rfl, inside, rfl⟩
    obtain ⟨w, s', rfl, spaces, inside', tight⟩ := elements.strip inside
    have stops : ¬ starts isJsonWs (s' ++ [close] ++ t) := by
      rw [List.append_assoc]
      exact not_starts_of_break (tight _) ws_breaks
    refine ⟨w, (), s' ++ [close], by rw [List.append_assoc], ⟨spaces, stops⟩, ?_⟩
    exact (same _ _ _ stops).2 ⟨s', more, rfl, inside', rfl⟩

/-- The end of a round of the loop. -/
theorem tail_scans (eof other : String)
    (loop : ∀ m, m + 1 = n → Scans m p (listGrammar close Text before)) :
    Scans n (branch atEnd (failHere .eof eof) <|
        onNext (is (byte ',')) (fun _ => Json.skipWs >>= fun _ => p) <|
        onNext (is close) (fun _ => pure before) <| failHere .syntax_ other)
      (tailGrammar close Text before) := by
  refine (Scans.ifEnd (failHere_scans _ _) (Scans.ifTake
    (fun m _ less => elements.skipWs (loop m less) fun _ _ _ _ => Iff.rfl)
    (Scans.ifTake (fun _ _ _ => Scans.pure before) (failHere_scans _ _)))).congr ?_
  intro s a t
  simp only [and_false, false_or, or_false, beq_iff_eq]
  constructor
  · rintro ⟨-, ⟨_, rest, rfl, rfl, found⟩ | ⟨-, _, _, rfl, rfl, rfl, rfl⟩⟩
    · exact .inl ⟨rest, rfl, found⟩
    · exact .inr ⟨rfl, rfl⟩
  · rintro (⟨rest, rfl, found⟩ | ⟨rfl, rfl⟩)
    · exact ⟨by simp, .inl ⟨_, rest, rfl, rfl, found⟩⟩
    · refine ⟨by simp, .inr ⟨?_, close, [], rfl, rfl, rfl, rfl⟩⟩
      rcases elements.closes with rfl | rfl <;> simp +decide

theorem tail_head {all : List Value} {t : Bytes} (tail : tailGrammar close Text before s all t) :
    ∃ c s', s = c :: s' ∧ isJsonWs c = false ∧ ¬ isNumberTail c := by
  obtain ⟨rest, rfl, -⟩ | ⟨rfl, -⟩ := tail
  · exact ⟨_, rest, rfl, by decide, by decide⟩
  · refine ⟨close, [], rfl, ?_⟩
    rcases elements.closes with rfl | rfl <;> decide

/-- A value and what follows it. -/
theorem value_scans (value : Scans n (readValueWith fuel) valueGrammar)
    {next : Value → Reads (List Value)} {known : Value → List Value}
    (rest : ∀ v, Scans n (next v) (tailGrammar close Text (known v))) :
    Scans n (readValueWith fuel >>= fun v => Json.skipWs >>= fun _ => next v) fun s all t =>
      ∃ w text w' s' v, s = w ++ (text ++ (w' ++ s')) ∧ Spaces w ∧ ValueText text v ∧ Spaces w' ∧
        tailGrammar close Text (known v) s' all t := by
  refine (value.bind fun v => skipWs_scans.bind fun _ => rest v).congr ?_
  intro s all t
  constructor
  · rintro ⟨_, v, _, rfl, ⟨w, text, rfl, spaces, tree, -⟩, w', _, s', rfl, ⟨spaces', -⟩, tail⟩
    exact ⟨w, text, w', s', v, List.append_assoc .., spaces, tree, spaces', tail⟩
  · rintro ⟨w, text, w', s', v, rfl, spaces, tree, spaces', tail⟩
    obtain ⟨c, s', rfl, space, other⟩ := elements.tail_head tail
    refine ⟨w ++ text, v, w' ++ c :: s', by simp, ⟨w, text, rfl, spaces, tree, ?_⟩, w', (), c :: s',
      rfl, ⟨spaces', by simp [space]⟩, tail⟩
    rw [List.append_assoc]
    exact follows_separator spaces' other

/-- What is read after the bracket that opens the elements. -/
theorem rest_scans (make : List Value → Value) (loop : Scans n p (listGrammar close Text [])) :
    Scans n (Json.skipWs >>= fun _ => onNext (is close) (fun _ => pure (make []))
        (p >>= fun values => pure (make values)) : Reads Value)
      fun s v _ => (∃ w, s = w ++ [close] ∧ Spaces w ∧ v = make []) ∨
        ∃ text values, s = text ++ [close] ∧ Text text values ∧ v = make values := by
  refine (skipWs_scans.bind fun _ => Scans.ifTake (fun _ _ _ => Scans.pure (make []))
    (loop.bind fun values => Scans.pure (make values))).congr ?_
  intro s v t
  simp only [beq_iff_eq]
  have ⟨plain, breaks⟩ : isJsonWs close = false ∧ isBreak close := by
    rcases elements.closes with rfl | rfl <;> decide
  constructor
  · rintro ⟨w, _, _, rfl, ⟨spaces, -⟩, ⟨_, _, rfl, rfl, rfl, rfl⟩ |
      ⟨-, _, _, _, rfl, ⟨text, values, rfl, inside, rfl⟩, rfl, rfl⟩⟩
    · exact .inl ⟨w, rfl, spaces, rfl⟩
    · exact .inr ⟨w ++ text, _, by simp, elements.spaced spaces inside, rfl⟩
  · rintro (⟨w, rfl, spaces, rfl⟩ | ⟨text, values, rfl, inside, rfl⟩)
    · exact ⟨w, (), [close], rfl, ⟨spaces, by simp [plain]⟩,
        .inl ⟨close, [], rfl, rfl, rfl, rfl⟩⟩
    · obtain ⟨w, text, rfl, spaces, inside, tight⟩ := elements.strip inside
      refine ⟨w, (), text ++ [close], by simp, ⟨spaces, ?_⟩, .inr ⟨?_, text ++ [close],
        values, [], by simp, ⟨text, values, rfl, inside, rfl⟩, rfl, rfl⟩⟩
      · rw [List.append_assoc]
        exact not_starts_of_break (tight _) ws_breaks
      · rw [List.append_assoc]
        exact not_starts_of_break (tight _) fun c same => eq_of_beq same ▸ breaks

end Elements

/-! ## The recursive functions -/

theorem readItems_step (value : Scans n (readValueWith fuel) valueGrammar)
    (loop : ∀ m items, m + 1 = n → Scans m (readItems fuel items) (itemsGrammar items)) :
    Scans n (readItems (fuel + 1) items) (itemsGrammar items) := by
  refine (itemsText_elements.value_scans value fun v => itemsText_elements.tail_scans _ _
    fun m less => loop m (items ++ [v]) less).congr ?_
  intro s a t
  constructor
  · rintro ⟨w, text, w', _, v, rfl, spaces, tree, spaces',
      ⟨_, rfl, rest, more, rfl, elements, rfl⟩ | ⟨rfl, rfl⟩⟩
    · exact ⟨w ++ (text ++ (w' ++ byte ',' :: rest)), v :: more, by simp,
        .more spaces tree spaces' elements, by simp⟩
    · exact ⟨w ++ (text ++ w'), [v], by simp, .one spaces tree spaces', rfl⟩
  · rintro ⟨_, _, rfl, elements, rfl⟩
    cases elements with
    | @one w text w' v spaces tree spaces' =>
      exact ⟨w, text, w', [byte ']'], v, by simp, spaces, tree, spaces', .inr ⟨rfl, rfl⟩⟩
    | @more w text w' rest v more spaces tree spaces' elements =>
      exact ⟨w, text, w', byte ',' :: (rest ++ [byte ']']), v, by simp, spaces, tree, spaces',
        .inl ⟨_, rfl, rest, more, rfl, elements, by simp⟩⟩

theorem readMembers_step (value : Scans n (readValueWith fuel) valueGrammar)
    (loop : ∀ m members, m + 1 = n →
      Scans m (readMembers fuel members) (membersGrammar members)) :
    Scans n (readMembers (fuel + 1) members) (membersGrammar members) := by
  refine membersText_elements.skipWs (parseStringText_scans.bind fun name =>
    skipWs_scans.bind fun _ => (expectChar_scans _ _).bind fun _ =>
    membersText_elements.value_scans value fun v => membersText_elements.tail_scans _ _
      fun m less => loop m (members ++ [.string name, v]) less) ?_
  intro s a t tight
  constructor
  · rintro ⟨k, name, _, rfl, key, w₁, _, _, rfl, ⟨spaces₁, -⟩, _, _, _, rfl, rfl,
      w₂, text, w₃, _, v, rfl, spaces₂, tree, spaces₃,
      ⟨_, rfl, rest, more, rfl, elements, rfl⟩ | ⟨rfl, rfl⟩⟩
    · exact ⟨_, .string name :: v :: more, by simp,
        .more spaces_nil key spaces₁ spaces₂ tree spaces₃ elements, by simp⟩
    · exact ⟨_, [.string name, v], by simp, .one spaces_nil key spaces₁ spaces₂ tree spaces₃, rfl⟩
  · rintro ⟨_, _, rfl, elements, rfl⟩
    -- White space before the key is excluded by the hypothesis on what follows.
    have none : ∀ {w s' : Bytes}, Spaces w → ¬ starts isJsonWs (w ++ s' ++ [byte '}'] ++ t) →
        w = [] := by
      intro w s' spaces tight
      cases w with
      | nil => rfl
      | cons c w => exact absurd (isJsonWs_iff.2 (spaces c List.mem_cons_self)) tight
    cases elements with
    | @one w k w₁ w₂ text w₃ name v spaces key spaces₁ spaces₂ tree spaces₃ =>
      obtain rfl := none spaces tight
      exact ⟨k, name, w₁ ++ (byte ':' :: (w₂ ++ (text ++ (w₃ ++ [byte '}'])))), by simp, key,
        w₁, (), _, rfl, ⟨spaces₁, by simp +decide⟩, [byte ':'], (), _, rfl, rfl,
        w₂, text, w₃, [byte '}'], v, rfl, spaces₂, tree, spaces₃, .inr ⟨rfl, rfl⟩⟩
    | @more w k w₁ w₂ text w₃ rest name v more spaces key spaces₁ spaces₂ tree spaces₃
        elements =>
        obtain rfl := none spaces tight
        exact ⟨k, name,
          w₁ ++ (byte ':' :: (w₂ ++ (text ++ (w₃ ++ (byte ',' :: (rest ++ [byte '}'])))))),
          by simp, key, w₁, (), _, rfl, ⟨spaces₁, by simp +decide⟩, [byte ':'], (), _, rfl, rfl,
          w₂, text, w₃, byte ',' :: (rest ++ [byte '}']), v, rfl, spaces₂, tree, spaces₃,
          .inl ⟨_, rfl, rest, more, rfl, elements, by simp⟩⟩

theorem number_starts {t : Bytes} (number : NumberText s) :
    starts (fun c => c == byte '-' || charIsDigit c) (s ++ t) := by
  obtain ⟨c, s', rfl, rfl | digit⟩ := number.head
  · rfl
  · simp [charIsDigit_iff.2 digit]

theorem NumberText.not_starts_char {t : Bytes} {x : UInt8} (number : NumberText s)
    (minus : (byte '-' == x) = false) (digits : x < byte '0' ∨ byte '9' < x) :
    ¬ starts (· == x) (s ++ t) := by
  refine number.not_starts minus ?_
  intro y same
  rw [eq_of_beq same]
  exact digits

theorem readValueWith_step (items : ∀ m, m + 1 = n → Scans m (readItems fuel []) (itemsGrammar []))
    (members : ∀ m, m + 1 = n → Scans m (readMembers fuel []) (membersGrammar [])) :
    Scans n (readValueWith (fuel + 1)) valueGrammar := by
  refine (skipWs_scans.bind fun _ => Scans.ifEnd (failHere_scans _ _) <|
    Scans.ifNext ((consumeLiteral_scans _).bind fun _ => Scans.pure .null) <|
    Scans.ifNext ((consumeLiteral_scans _).bind fun _ => Scans.pure (.bool true)) <|
    Scans.ifNext ((consumeLiteral_scans _).bind fun _ => Scans.pure (.bool false)) <|
    Scans.ifNext (parseStringText_scans.bind fun text => Scans.pure (.string text)) <|
    Scans.ifTake (fun m _ less => itemsText_elements.rest_scans .array (items m less)) <|
    Scans.ifTake (fun m _ less => membersText_elements.rest_scans .object (members m less)) <|
    Scans.ifNext (parseNumber_scans.bind fun number => Scans.pure (.number number)) <|
    failHere_scans _ _).congr ?_
  intro s v t
  simp only [and_false, false_or, or_false, beq_iff_eq]
  constructor
  · rintro ⟨w, _, text, rfl, ⟨spaces, -⟩, -, found⟩
    refine ⟨w, text, rfl, spaces, ?_⟩
    rcases found with ⟨-, _, _, _, rfl, rfl, rfl, rfl⟩ |
      ⟨-, ⟨-, _, _, _, rfl, rfl, rfl, rfl⟩ | ⟨-, ⟨-, _, _, _, rfl, rfl, rfl, rfl⟩ |
      ⟨-, ⟨-, _, _, _, rfl, string, rfl, rfl⟩ | ⟨-, ⟨_, _, rfl, rfl, array⟩ |
      ⟨-, ⟨_, _, rfl, rfl, object⟩ | ⟨-, -, _, _, _, rfl, ⟨rfl, number, stops⟩, rfl, rfl⟩⟩⟩⟩⟩⟩
    · exact ⟨.null, trivial⟩
    · exact ⟨.true, trivial⟩
    · exact ⟨.false, trivial⟩
    · rw [List.append_nil]
      exact ⟨.string string, trivial⟩
    · rcases array with ⟨w', rfl, spaces', rfl⟩ | ⟨text, items, rfl, elements, rfl⟩
      · exact ⟨.emptyArray spaces', trivial⟩
      · exact ⟨.array elements, trivial⟩
    · rcases object with ⟨w', rfl, spaces', rfl⟩ | ⟨text, members, rfl, elements, rfl⟩
      · exact ⟨.emptyObject spaces', trivial⟩
      · exact ⟨.object elements, trivial⟩
    · rw [List.append_nil]
      exact ⟨.number number, stops⟩
  · rintro ⟨w, text, rfl, spaces, tree, follows⟩
    have tight := not_starts_of_break (tree.not_starts_break (t := t)) ws_breaks
    refine ⟨w, (), text, rfl, ⟨spaces, tight⟩, ?_⟩
    cases tree with
    | null =>
      exact ⟨by simp, .inl ⟨rfl, _, (), [], rfl, rfl, rfl, rfl⟩⟩
    | true =>
      refine ⟨by simp, .inr ⟨by simp +decide, ?_⟩⟩
      exact .inl ⟨rfl, _, (), [], rfl, rfl, rfl, rfl⟩
    | false =>
      refine ⟨by simp, ?_⟩
      iterate 2 refine .inr ⟨by simp +decide, ?_⟩
      exact .inl ⟨rfl, _, (), [], rfl, rfl, rfl, rfl⟩
    | @string _ content string =>
      obtain ⟨chars⟩ := string
      refine ⟨by simp, ?_⟩
      iterate 3 refine .inr ⟨by simp +decide, ?_⟩
      exact .inl ⟨rfl, _, content, [], (List.append_nil _).symm, .mk chars, rfl, rfl⟩
    | emptyArray spaces' =>
      refine ⟨by simp, ?_⟩
      iterate 4 refine .inr ⟨by simp +decide, ?_⟩
      exact .inl ⟨_, _, rfl, rfl, .inl ⟨_, rfl, spaces', rfl⟩⟩
    | array elements =>
      refine ⟨by simp, ?_⟩
      iterate 4 refine .inr ⟨by simp +decide, ?_⟩
      exact .inl ⟨_, _, rfl, rfl, .inr ⟨_, _, rfl, elements, rfl⟩⟩
    | emptyObject spaces' =>
      refine ⟨by simp, ?_⟩
      iterate 5 refine .inr ⟨by simp +decide, ?_⟩
      exact .inl ⟨_, _, rfl, rfl, .inl ⟨_, rfl, spaces', rfl⟩⟩
    | object elements =>
      refine ⟨by simp, ?_⟩
      iterate 5 refine .inr ⟨by simp +decide, ?_⟩
      exact .inl ⟨_, _, rfl, rfl, .inr ⟨_, _, rfl, elements, rfl⟩⟩
    | number number =>
      obtain ⟨c, s', rfl, -⟩ := number.head
      refine ⟨by simp, ?_⟩
      iterate 6 refine .inr ⟨number.not_starts_char rfl (by decide), ?_⟩
      exact ⟨number_starts number, _, ⟨_⟩, [], (List.append_nil _).symm, ⟨rfl, number, follows⟩,
        rfl, rfl⟩

/-- With enough fuel the three functions follow their grammars. -/
theorem read_scans (fuel : Nat) :
    (∀ n, 2 * n + 1 ≤ fuel → Scans n (readValueWith fuel) valueGrammar) ∧
    (∀ n items, 2 * n + 2 ≤ fuel → Scans n (readItems fuel items) (itemsGrammar items)) ∧
    (∀ n members, 2 * n + 2 ≤ fuel →
      Scans n (readMembers fuel members) (membersGrammar members)) := by
  induction fuel with
  | zero =>
    refine ⟨?_, ?_, ?_⟩
    · intro n enough
      omega
    · intro n items enough
      omega
    · intro n members enough
      omega
  | succ fuel ih =>
    obtain ⟨value, items, members⟩ := ih
    refine ⟨?_, ?_, ?_⟩
    · intro n enough
      exact readValueWith_step (fun m less => items m [] (by omega))
        (fun m less => members m [] (by omega))
    · intro n before enough
      exact readItems_step (value n (by omega)) (fun m items' less => items m items' (by omega))
    · intro n before enough
      exact readMembers_step (value n (by omega))
        (fun m members' less => members m members' (by omega))

theorem readValue_scans : Scans n readValue valueGrammar :=
  Scans.fueled fun m => (read_scans (2 * m + 1)).1 m (Nat.le_refl _)

theorem parseWhole_scans : Scans n parseWhole fun s v t => JsonText s v ∧ t = [] := by
  refine (readValue_scans.bind fun v => skipWs_scans.bind fun _ =>
    Scans.ifEnd (Scans.pure v) (failHere_scans _ _)).congr ?_
  intro s v t
  simp only [and_false, or_false]
  constructor
  · rintro ⟨_, v, _, rfl, ⟨w, text, rfl, spaces, tree, -⟩, w', _, _, rfl, ⟨spaces', -⟩, last, rfl,
      rfl⟩
    rw [List.append_nil, List.append_assoc]
    exact ⟨.mk spaces tree spaces', last⟩
  · rintro ⟨@⟨w, text, w', _, spaces, tree, spaces'⟩, rfl⟩
    refine ⟨w ++ text, v, w', by simp, ⟨w, text, rfl, spaces, tree, ?_⟩, w', (), [], by simp,
      ⟨spaces', by simp⟩, rfl, rfl, rfl⟩
    rw [List.append_nil]
    exact follows_end spaces'

/-- The parser always has a result. -/
theorem parse_ends (input : Bytes) : parse input ≠ none := by
  rw [parse, ne_eq, Option.map_eq_none_iff]
  exact parseWhole_scans.ends (reader input) (Nat.le_refl _)

/-- The parser succeeds on the JSON texts, with the tree of the text. -/
theorem parse_ok_iff (input : Bytes) (v : Value) :
    parse input = some (.ok v) ↔ JsonText input v := by
  have returns := parseWhole_scans.returns_iff (reader input) (Nat.le_refl _)
  have result : parse input = some (.ok v) ↔
      ∃ r, parseWhole.Returns (reader input) v r := by
    simp only [parse, Returns]
    cases parseWhole (reader input) with
    | none => simp
    | some result =>
      cases result with
      | error e => simp [Except.map]
      | ok pair =>
        obtain ⟨v', r⟩ := pair
        simp [Except.map]
  rw [result]
  constructor
  · rintro ⟨r, returned⟩
    obtain ⟨s, read, text, last⟩ := (returns v r).1 returned
    have whole : input = s := by
      rw [show input = s ++ r.rest from read.1, last, List.append_nil]
    rw [whole]
    exact text
  · intro text
    refine ⟨⟨input.length, []⟩, (returns v _).2 ⟨input, ⟨?_, ?_⟩, text, rfl⟩⟩
    · exact (List.append_nil input).symm
    · exact (Nat.zero_add _).symm

end Ciel.Json
