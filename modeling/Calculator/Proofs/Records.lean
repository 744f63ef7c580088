/-
  Records tell events apart.

  Problem: the log of an evaluation consists of texts, each with its level of detail.  Show which text
  is written for which event, and that a reader of the texts knows the events: the tokens with their
  values, the operands of operators, the places, the text that was evaluated, and the outcome.

  1. **Names** — operators, and tokens without a value, have names in records (`Operator.names`,
     `Token.names`).  A literal stands with its value, and tells whether it is exact
     (`Token.Called`).

  2. **Specification** — `Event.Written`: the level and the text for each sort of event, in fixed
     words.  Numbers stand as they are read (see `Numerals`), and texts are quoted (see `Quotation`).

  3. **The crux (`Event.Written.unique`)** — of the finer level only the records of tokens begin with a
     letter that no number holds, and at the other one each sort has an initial of its own, except
     that success and failure begin with the same quoted text.  Then each part ends where the next
     blank stands, or where its quotation does.

  4. **Result (`forall₂_written_iff`)** — records are written for some events exactly if these are the
     events of the log, in order.
-/
import Calculator.Proofs.Unambiguity

namespace Calculator

open Text Binary64

/-! ## Names -/

/-- The names of the operators. -/
def Operator.names : List (Operator × String) :=
  [(.add, "Add"), (.sub, "Sub"), (.mul, "Mul"), (.div, "Div")]

/-- The names of the tokens that have no value. -/
def Token.names : List (Token × String) :=
  [(.operator .add, "Plus"), (.operator .sub, "Minus"), (.operator .mul, "Mul"),
    (.operator .div, "Div"), (.leftParen, "LParen"), (.rightParen, "RParen"),
    (.endOfInput, "EndOfInput")]

/-- What a token is called. -/
inductive Token.Called : Token → List Char → Prop
  | plain {token : Token} {name : String} (h : (token, name) ∈ names) : Called token name.toList
  | exact (value : UInt64) :
    Called (.integer (.exact value)) ("Integer(Exact(".toList ++ digits value.toNat ++ "))".toList)
  | rounded {value : Binary64} {number : List Char} (h : Shown true value number) :
    Called (.integer (.rounded value)) ("Integer(Rounded(".toList ++ number ++ "))".toList)

theorem Operator.label_mem_names (op : Operator) : (op, op.label) ∈ names := by
  cases op <;> decide

/-- Tokens are called like this. -/
theorem Token.called_describe (token : Token) : token.Called token.describe.toList := by
  rcases token with ⟨value | value⟩ | op | _ | _ | _
  · have htext : (integer (.exact value)).describe =
        "Integer(Exact(" ++ toString value.toNat ++ "))" := rfl
    rw [htext, String.toList_append, String.toList_append, toList_toString]
    exact .exact value
  · have htext : (integer (.rounded value)).describe =
        "Integer(Rounded(" ++ value.scientificText ++ "))" := rfl
    rw [htext, String.toList_append, String.toList_append]
    exact .rounded value.shown_scientificText
  · refine .plain ?_
    cases op <;> decide
  · exact .plain (by decide)
  · exact .plain (by decide)
  · exact .plain (by decide)

/-- No name of an operator holds a blank, and different operators have different names. -/
theorem Operator.names_apart : ∀ p ∈ names, ' ' ∉ p.2.toList ∧
    ∀ q ∈ names, p.2.toList = q.2.toList → p.1 = q.1 := by
  decide +kernel

/-- The same is true of tokens, none of which is called like a literal. -/
theorem Token.names_apart : ∀ p ∈ names, ' ' ∉ p.2.toList ∧ p.2.toList.head? ≠ some 'I' ∧
    ∀ q ∈ names, p.2.toList = q.2.toList → p.1 = q.1 := by
  decide +kernel

namespace Token

variable {token token' : Token} {name name' : List Char}

/-- What a token is called is one word. -/
theorem Called.blank_not_mem (h : token.Called name) : ' ' ∉ name := by
  cases h with
  | plain h => exact (names_apart _ h).1
  | exact value =>
    have hwords : ' ' ∉ "Integer(Exact(".toList ∧ ' ' ∉ "))".toList := by decide
    simp only [List.mem_append, not_or]
    exact ⟨⟨hwords.1, not_mem_digits rfl _⟩, hwords.2⟩
  | rounded h =>
    have hwords : ' ' ∉ "Integer(Rounded(".toList ∧ ' ' ∉ "))".toList := by decide
    simp only [List.mem_append, not_or]
    exact ⟨⟨hwords.1, h.not_mem rfl (by decide)⟩, hwords.2⟩

/-- What is exact is not called rounded. -/
theorem exact_ne_rounded {rest rest' : List Char} :
    "Integer(Exact(".toList ++ rest ≠ "Integer(Rounded(".toList ++ rest' := by
  intro h
  have hexact : "Integer(Exact(".toList = "Integer(".toList ++ 'E' :: "xact(".toList := rfl
  have hrounded : "Integer(Rounded(".toList = "Integer(".toList ++ 'R' :: "ounded(".toList := rfl
  rw [hexact, hrounded, List.append_assoc, List.append_assoc] at h
  cases (List.cons.inj (List.append_cancel_left h)).1

/-- **A token can be made out** from what it is called. -/
theorem Called.unique (h : token.Called name) (h' : token'.Called name') (heq : name = name') :
    token = token' := by
  cases h with
  | plain h =>
    obtain ⟨_, hhead, hsame⟩ := names_apart _ h
    cases h' with
    | plain h' => exact hsame _ h' heq
    | exact => exact absurd (congrArg List.head? heq) hhead
    | rounded => exact absurd (congrArg List.head? heq) hhead
  | exact value =>
    cases h' with
    | plain h' => exact absurd (congrArg List.head? heq).symm (names_apart _ h').2.1
    | exact value' =>
      have hdigits := List.append_cancel_left (List.append_cancel_right heq)
      rw [UInt64.toNat_inj.1 (digits_injective hdigits)]
    | rounded h' =>
      rw [List.append_assoc, List.append_assoc] at heq
      exact absurd heq exact_ne_rounded
  | rounded h =>
    cases h' with
    | plain h' => exact absurd (congrArg List.head? heq).symm (names_apart _ h').2.1
    | exact value' =>
      rw [List.append_assoc, List.append_assoc] at heq
      exact absurd heq.symm exact_ne_rounded
    | rounded h' =>
      have hnumber := List.append_cancel_left (List.append_cancel_right heq)
      subst hnumber
      rw [h.unique h']

end Token

/-! ## Records -/

/-- A record as it stands in the log: its level of detail and its text. -/
def Event.record (event : Event) : Detail × List Char := (event.detail, event.message.toList)

/-- How an event is recorded. -/
inductive Event.Written : Event → Detail × List Char → Prop
  | started {text : String} {quoted : List Char} (htext : Quoted '"' text.toList quoted) :
    Written (.started text) (.debug, "evaluating ".toList ++ '"' :: quoted)
  | read {token : Token} {name : List Char} (hname : token.Called name) (position : Nat) :
    Written (.read token position)
      (.trace, "lexed ".toList ++ (name ++ " at ".toList ++ digits position))
  | rounded {value : Binary64} {number : List Char} (hnumber : Shown false value number)
    (position : Nat) :
    Written (.rounded value position)
      (.debug, "literal at ".toList ++ (digits position ++ ' ' :: ("rounded to ".toList ++ number)))
  | applied {op : Operator} {name : String} (hname : (op, name) ∈ Operator.names)
    {left right : Binary64} {first second : List Char} (hleft : Shown false left first)
    (hright : Shown false right second) (position : Nat) :
    Written (.applied op left right position)
      (.trace, first ++ ' ' :: (name.toList ++ ' ' :: (second ++ " at ".toList ++ digits position)))
  | ignored (position : Nat) :
    Written (.ignored position)
      (.debug, "ignoring input after position ".toList ++ digits position)
  | succeeded {text : String} {quoted : List Char} (htext : Quoted '"' text.toList quoted)
    {value : Binary64} {number : List Char} (hnumber : Shown false value number) :
    Written (.succeeded text value) (.debug, '"' :: quoted ++ (" = ".toList ++ number))
  | failed {text : String} {quoted : List Char} (htext : Quoted '"' text.toList quoted)
    (fault : Fault) :
    Written (.failed text fault)
      (.debug, '"' :: quoted ++ (" failed: ".toList ++ fault.message.toList))

namespace Event

/-- **Events are recorded like this.** -/
theorem written_record (event : Event) : event.Written event.record := by
  rcases event with text | ⟨token, position⟩ | ⟨value, position⟩ | ⟨op, left, right, position⟩ |
    position | ⟨text, value⟩ | ⟨text, fault⟩
  case started =>
    obtain ⟨quoted, hquoted, htext⟩ := exists_quoted '"' text.toList
    have hmessage : (started text).message = "evaluating " ++ quoteText text := rfl
    rw [record, hmessage, quoteText, String.toList_append, hquoted]
    exact .started htext
  case read =>
    have hmessage : (read token position).message =
        "lexed " ++ token.describe ++ " at " ++ toString position := rfl
    rw [record, hmessage]
    simp only [String.toList_append, toList_toString, List.append_assoc]
    have hwritten := Written.read token.called_describe position
    rw [List.append_assoc] at hwritten
    exact hwritten
  case rounded =>
    have hmessage : (rounded value position).message =
        "literal at " ++ toString position ++ " rounded to " ++ value.text := rfl
    rw [record, hmessage]
    simp only [String.toList_append, toList_toString, List.append_assoc]
    exact .rounded value.shown_text position
  case applied =>
    have hmessage : (applied op left right position).message =
        left.text ++ " " ++ op.label ++ " " ++ right.text ++ " at " ++ toString position := rfl
    have hblank : " ".toList = [' '] := rfl
    rw [record, hmessage]
    simp only [String.toList_append, toList_toString, List.append_assoc, hblank,
      List.singleton_append]
    have hwritten := Written.applied op.label_mem_names left.shown_text right.shown_text position
    rw [List.append_assoc] at hwritten
    exact hwritten
  case ignored =>
    have hmessage : (ignored position).message =
        "ignoring input after position " ++ toString position := rfl
    rw [record, hmessage, String.toList_append, toList_toString]
    exact .ignored position
  case succeeded =>
    obtain ⟨quoted, hquoted, htext⟩ := exists_quoted '"' text.toList
    have hmessage : (succeeded text value).message = quoteText text ++ " = " ++ value.text := rfl
    rw [record, hmessage, quoteText]
    simp only [String.toList_append, hquoted, List.append_assoc]
    exact .succeeded htext value.shown_text
  case failed =>
    obtain ⟨quoted, hquoted, htext⟩ := exists_quoted '"' text.toList
    have hmessage : (failed text fault).message =
        quoteText text ++ " failed: " ++ fault.message := rfl
    rw [record, hmessage, quoteText]
    simp only [String.toList_append, hquoted, List.append_assoc]
    exact .failed htext fault

/-- The first character of the record, if it does not begin with a number. -/
def initial : Event → Option Char
  | .started _ => some 'e'
  | .read .. | .rounded .. => some 'l'
  | .applied .. => none
  | .ignored _ => some 'i'
  | .succeeded .. | .failed .. => some '"'

/-- The sort of a record, as far as its level and its first character tell. -/
def sortOf : Detail × List Char → Detail × Option Char
  | (.debug, text) => (.debug, text.head?)
  | (.trace, text) => (.trace, text.head?.filter fun c => c = 'l')

/-- Only success and failure are not told apart by it. -/
theorem Written.sort_eq {event : Event} {record : Detail × List Char} (h : event.Written record) :
    sortOf record = (event.detail, event.initial) := by
  cases h with
  | @applied _ _ _ _ _ first _ hleft =>
    have hnone : ∀ c ∈ first.head?, c ≠ 'l' := by
      rintro c hc rfl
      exact hleft.not_mem rfl (by decide) (List.mem_of_mem_head? hc)
    rcases first with _ | ⟨c, first⟩
    · rfl
    · exact congrArg (Prod.mk Detail.trace)
        (Option.filter_some_neg (by simpa using hnone c rfl))
  | _ => rfl

/-- What is told of a place, and the place. -/
theorem eq_of_place {front front' : List Char} {position position' : Nat} (h : ' ' ∉ front)
    (h' : ' ' ∉ front')
    (heq : front ++ " at ".toList ++ digits position =
      front' ++ " at ".toList ++ digits position') : front = front' ∧ position = position' := by
  have hwords : " at ".toList = ' ' :: "at ".toList := rfl
  rw [List.append_assoc, List.append_assoc, hwords] at heq
  obtain ⟨hfront, hrest⟩ := eq_of_append_mark h h' heq
  exact ⟨hfront, digits_injective (List.append_cancel_left hrest)⟩

/-- The text that is quoted, and what is told of it. -/
theorem eq_of_quoted {text text' : String} {quoted quoted' rest rest' : List Char}
    (h : Quoted '"' text.toList quoted) (h' : Quoted '"' text'.toList quoted')
    (heq : '"' :: quoted ++ rest = '"' :: quoted' ++ rest') : text = text' ∧ rest = rest' := by
  obtain ⟨htext, hrest⟩ := h.unique (.inr rfl) h' (List.cons.inj heq).2
  exact ⟨String.toList_inj.1 htext, hrest⟩

/-- Success is not told like failure. -/
theorem succeeded_ne_failed {rest rest' : List Char} :
    " = ".toList ++ rest ≠ " failed: ".toList ++ rest' := by
  intro h
  cases (List.cons.inj (List.cons.inj h).2).1

/-- **An event can be made out** from what is recorded of it. -/
theorem Written.unique {event event' : Event} {record record' : Detail × List Char}
    (h : event.Written record) (h' : event'.Written record') (heq : record = record') :
    event = event' := by
  have hsort : (event.detail, event.initial) = (event'.detail, event'.initial) := by
    rw [← h.sort_eq, ← h'.sort_eq, heq]
  have htexts := congrArg Prod.snd heq
  cases h with
  | started htext =>
    cases h' with
    | started htext' =>
      obtain rfl := (List.cons.inj (List.append_cancel_left htexts)).2
      rw [(eq_of_quoted htext htext' (rfl : _ ++ [] = _)).1]
    | _ => cases hsort
  | read hname position =>
    cases h' with
    | read hname' position' =>
      obtain ⟨hsame, rfl⟩ := eq_of_place hname.blank_not_mem hname'.blank_not_mem
        (List.append_cancel_left htexts)
      rw [hname.unique hname' hsame]
    | _ => cases hsort
  | rounded hnumber position =>
    cases h' with
    | rounded hnumber' position' =>
      obtain ⟨hplace, hvalue⟩ := eq_of_append_mark (not_mem_digits rfl position)
        (not_mem_digits rfl position') (List.append_cancel_left htexts)
      obtain rfl := List.append_cancel_left hvalue
      rw [digits_injective hplace, hnumber.unique hnumber']
    | _ => cases hsort
  | applied hname hleft hright position =>
    cases h' with
    | applied hname' hleft' hright' position' =>
      obtain ⟨rfl, hrest⟩ := eq_of_append_mark (hleft.not_mem rfl (by decide))
        (hleft'.not_mem rfl (by decide)) htexts
      obtain ⟨hop, hrest⟩ := eq_of_append_mark (Operator.names_apart _ hname).1
        (Operator.names_apart _ hname').1 hrest
      obtain ⟨rfl, rfl⟩ := eq_of_place (hright.not_mem rfl (by decide))
        (hright'.not_mem rfl (by decide)) hrest
      obtain rfl : _ = _ := (Operator.names_apart _ hname).2 _ hname' hop
      rw [hleft.unique hleft', hright.unique hright']
    | _ => cases hsort
  | ignored position =>
    cases h' with
    | ignored position' => rw [digits_injective (List.append_cancel_left htexts)]
    | _ => cases hsort
  | succeeded htext hnumber =>
    cases h' with
    | succeeded htext' hnumber' =>
      obtain ⟨rfl, hrest⟩ := eq_of_quoted htext htext' htexts
      obtain rfl := List.append_cancel_left hrest
      rw [hnumber.unique hnumber']
    | failed htext' fault =>
      exact absurd (eq_of_quoted htext htext' htexts).2 succeeded_ne_failed
    | _ => cases hsort
  | failed htext fault =>
    cases h' with
    | succeeded htext' hnumber' =>
      exact absurd (eq_of_quoted htext htext' htexts).2.symm succeeded_ne_failed
    | failed htext' fault' =>
      obtain ⟨rfl, hrest⟩ := eq_of_quoted htext htext' htexts
      rw [Fault.message_injective (String.toList_inj.1 (List.append_cancel_left hrest))]
    | _ => cases hsort

/-- **Records are written for some events exactly if these are the events.** -/
theorem forall₂_written_iff {events log : List Event} :
    List.Forall₂ Written events (log.map record) ↔ events = log := by
  rw [List.forall₂_map_right_iff]
  constructor
  · intro h
    rw [← List.forall₂_eq_eq_eq]
    exact h.imp fun event event' hwritten => hwritten.unique event'.written_record rfl
  · rintro rfl
    exact List.forall₂_same.2 fun event _ => event.written_record

end Event

end Calculator
