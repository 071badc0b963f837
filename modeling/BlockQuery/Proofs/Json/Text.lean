import BlockQuery.Json.Parser
import BlockQuery.Json.Printer
import Mathlib.Data.Int.Notation
import Mathlib.Data.List.Basic
import Mathlib.Data.Nat.Notation
import Mathlib.Tactic.SplitIfs

/-!
# Documents and their texts

The indented text of a document is read back, if there are no doubles in it, its
numbers fit 64 bits and its arrays and objects are not too deep within one
another.  Each part is read from the front of whatever comes after its text.
-/

namespace BlockQuery.Json

/-! ## Numbers -/

/-- What comes after an item or a member in an indented text. -/
def Ends (rest : List Char) : Prop := ∀ c ∈ rest.head?, c = ',' ∨ c = '\n'

theorem splitDigits_append {digits rest : List Char} (hdigits : ∀ c ∈ digits, c.isDigit = true)
    (hrest : Ends rest) : splitDigits (digits ++ rest) = (digits, rest) := by
  have hnone : rest.takeWhile Char.isDigit = [] ∧ rest.dropWhile Char.isDigit = rest := by
    cases rest with
    | nil => exact ⟨rfl, rfl⟩
    | cons c rest =>
      rcases hrest c rfl with rfl | rfl
      · exact ⟨rfl, rfl⟩
      · exact ⟨rfl, rfl⟩
  rw [splitDigits, List.takeWhile_append_of_pos hdigits, List.dropWhile_append_of_pos hdigits,
    hnone.1, hnone.2, List.append_nil]

theorem le_ofDigitChars (digits : List Char) (value : ℕ) :
    value ≤ Nat.ofDigitChars 10 digits value := by
  induction digits generalizing value with
  | nil => exact Nat.le_refl value
  | cons c digits ih =>
    rw [Nat.ofDigitChars_cons]
    have h := ih (10 * value + (c.toNat - '0'.toNat))
    omega

theorem significand_eq (digits : List Char) (value : ℕ)
    (h : Nat.ofDigitChars 10 digits value < UInt64.size) :
    significand value digits = (Nat.ofDigitChars 10 digits value, []) := by
  induction digits generalizing value with
  | nil => rfl
  | cons c digits ih =>
    rw [Nat.ofDigitChars_cons, Nat.mul_comm] at h ⊢
    have hle := le_ofDigitChars digits (value * 10 + (c.toNat - '0'.toNat))
    rw [significand, if_neg (by rw [digitValue]; omega)]
    exact ih _ h

theorem head?_toDigits {n : ℕ} (hn : 0 < n) : (Nat.toDigits 10 n).head? ≠ some '0' := by
  induction n using Nat.strongRecOn with
  | _ n ih =>
    by_cases hlt : n < 10
    · have hdigit : ∀ m < 10, 0 < m → [Nat.digitChar m].head? ≠ some '0' := by decide
      rw [Nat.toDigits_of_lt_base hlt]
      exact hdigit n hlt hn
    · rw [Nat.toDigits_of_base_le (by decide) (Nat.le_of_not_lt hlt),
        List.head?_append_of_ne_nil _ Nat.toDigits_ne_nil]
      exact ih (n / 10) (by omega) (by omega)

theorem unsignedNumber_toDigits {n : ℕ} (negative : Bool) (hn : n < UInt64.size)
    {rest : List Char} (hrest : Ends rest) :
    unsignedNumber negative (Nat.toDigits 10 n ++ rest) = some (wholeNumber negative n, rest) := by
  have hdigits : ∀ c ∈ Nat.toDigits 10 n, c.isDigit = true := fun c hc =>
    Nat.isDigit_of_mem_toDigits (by decide) (by decide) hc
  have hzero : ¬((Nat.toDigits 10 n).head? = some '0' ∧ (Nat.toDigits 10 n).length ≠ 1) := by
    rintro ⟨hhead, hlength⟩
    rcases Nat.eq_zero_or_pos n with rfl | hpos
    · exact hlength rfl
    · exact head?_toDigits hpos hhead
  have hvalue : significand 0 (Nat.toDigits 10 n) = (n, []) := by
    have h := significand_eq (Nat.toDigits 10 n) 0
      (by rw [Nat.ofDigitChars_ten_toDigits]; exact hn)
    rwa [Nat.ofDigitChars_ten_toDigits] at h
  rw [unsignedNumber, splitDigits_append hdigits hrest]
  dsimp only
  rw [if_neg (by simp [Nat.toDigits_ne_nil]), if_neg hzero, hvalue]
  cases rest with
  | nil => rfl
  | cons c rest =>
    rcases hrest c rfl with rfl | rfl
    · rfl
    · rfl

/-- The written form of a whole number starts with its sign or with a digit. -/
theorem repr_eq_cons (n : ℤ) :
    ∃ c cs, n.repr.toList = c :: cs ∧ (n < 0 → c = '-') ∧ (0 ≤ n → c.isDigit = true) := by
  rw [Int.repr_eq_if]
  split
  next hn =>
    obtain ⟨c, cs, heq⟩ :=
      List.exists_cons_of_ne_nil (Nat.toDigits_ne_nil (b := 10) (n := n.toNat))
    have hdigit : c.isDigit = true :=
      Nat.isDigit_of_mem_toDigits (b := 10) (n := n.toNat) (by decide) (by decide)
        (heq ▸ List.mem_cons_self)
    exact ⟨c, cs, Nat.toList_repr.trans heq, fun h => absurd hn (Int.not_le.mpr h), fun _ => hdigit⟩
  next hn => exact ⟨'-', _, String.toList_append, fun _ => rfl, fun h => absurd h hn⟩

/-- Whole numbers of 64 bits, signed when negative. -/
def FitsWord (n : ℤ) : Prop := -9223372036854775808 ≤ n ∧ n < 18446744073709551616

theorem number_repr {n : ℤ} (hn : FitsWord n) {rest : List Char} (hrest : Ends rest) :
    number (n.repr.toList ++ rest) = some (whole n, rest) := by
  obtain ⟨hlow, hhigh⟩ := hn
  obtain ⟨c, cs, heq, hc⟩ := repr_eq_cons n
  by_cases hsign : 0 ≤ n
  · obtain ⟨m, rfl⟩ := Int.eq_ofNat_of_zero_le hsign
    have hdigits := unsignedNumber_toDigits (n := m) false (by rw [UInt64.size]; omega) hrest
    -- Without a minus in front the reader takes all of it for digits.
    have hminus : ∀ tail, c :: cs ++ rest = '-' :: tail → False := by
      rintro tail ⟨⟩
      cases hc.2 hsign
    have hnumber : number (c :: cs ++ rest) = unsignedNumber false (c :: cs ++ rest) := by
      rw [number]
      exact hminus
    rw [heq, hnumber, ← heq, Int.repr_eq_if, if_pos hsign, Int.toNat_natCast, Nat.toList_repr,
      hdigits]
    rfl
  · obtain ⟨m, rfl⟩ := Int.eq_negSucc_of_lt_zero (Int.not_le.mp hsign)
    have hdigits := unsignedNumber_toDigits (n := m + 1) true (by rw [UInt64.size]; omega) hrest
    have hvalue : wholeNumber true (m + 1) = whole (Int.negSucc m) := by
      rw [wholeNumber, if_neg (by decide), if_neg (by omega)]
      rfl
    rw [Int.repr_eq_if, if_neg hsign, String.toList_append, Nat.toList_repr]
    exact hdigits.trans (congrArg (fun v => some (v, rest)) hvalue)

/-! ## Texts -/

theorem codeUnit?_control : ∀ n < 32,
    codeUnit? '0' '0' (hexDigit (n / 16)) (hexDigit n) = some n := by decide

theorem pushUnit_control {n : ℕ} (hn : n < 32) (done : List Char) :
    (TextPart.whole done).pushUnit n = .whole (Char.ofNat n :: done) := by
  have hhigh : isHighSurrogate n = false := by
    rw [isHighSurrogate, Bool.and_eq_false_iff]
    exact Or.inl (decide_eq_false (by omega))
  have hlow : isLowSurrogate n = false := by
    rw [isLowSurrogate, Bool.and_eq_false_iff]
    exact Or.inl (decide_eq_false (by omega))
  rw [TextPart.pushUnit, if_neg (by simp [hhigh]), if_neg (by simp [hlow])]

/-- A character is read from its written form, whether it is an escape or not. -/
theorem textBody_escapeChar (c : Char) (done cs : List Char) :
    textBody (.whole done) (escapeChar c ++ cs) = textBody (.whole (c :: done)) cs := by
  unfold escapeChar
  split_ifs with hquote hslash hb hf hn hr ht hcontrol
  · rw [eq_of_beq hquote]
    rfl
  · rw [eq_of_beq hslash]
    rfl
  · rw [eq_of_beq hb]
    rfl
  · rw [eq_of_beq hf]
    rfl
  · rw [eq_of_beq hn]
    rfl
  · rw [eq_of_beq hr]
    rfl
  · rw [eq_of_beq ht]
    rfl
  · have hunit := codeUnit?_control c.toNat hcontrol
    simp only [List.cons_append, List.nil_append]
    rw [textBody, hunit]
    dsimp only
    rw [pushUnit_control hcontrol, Char.ofNat_toNat]
  · rw [beq_iff_eq] at hquote hslash
    have hkept : ¬(decide (c.toNat < 32) || c == '\\') = true := by simp [hcontrol, hslash]
    rw [List.singleton_append, textBody, if_neg hkept, TextPart.push]
    · exact hquote
    · exact fun _ _ _ _ _ h => absurd h hslash
    · exact fun _ _ h => absurd h hslash

theorem textBody_flatMap (cs done rest : List Char) :
    textBody (.whole done) (cs.flatMap escapeChar ++ '"' :: rest) =
      some (some (String.ofList (done.reverse ++ cs)), rest) := by
  induction cs generalizing done with
  | nil => rw [List.flatMap_nil, List.nil_append, textBody, TextPart.text?, List.append_nil]
  | cons c cs ih =>
    rw [List.flatMap_cons, List.append_assoc, textBody_escapeChar, ih, List.reverse_cons,
      List.append_assoc, List.singleton_append]

theorem toList_quote (s : String) :
    (quote s).toList = '"' :: (s.toList.flatMap escapeChar ++ ['"']) := by
  simp [quote]

/-- A text is read from what comes after its opening quote. -/
theorem quotedText_flatMap (s : String) (rest : List Char) :
    quotedText (s.toList.flatMap escapeChar ++ '"' :: rest) = some (some s, rest) := by
  rw [quotedText, textBody_flatMap, List.reverse_nil, List.nil_append, String.ofList_toList]

/-! ## Blanks -/

theorem skipBlanks_append {blanks : List Char} (h : ∀ c ∈ blanks, isBlank c = true)
    (cs : List Char) : skipBlanks (blanks ++ cs) = skipBlanks cs := by
  induction blanks with
  | nil => rfl
  | cons c blanks ih =>
    obtain ⟨hc, hblanks⟩ := List.forall_mem_cons.mp h
    rw [List.cons_append, skipBlanks, if_pos hc, ih hblanks]

theorem skipBlanks_cons {c : Char} (h : isBlank c = false) (cs : List Char) :
    skipBlanks (c :: cs) = c :: cs := by
  rw [skipBlanks, if_neg (by simp [h])]

theorem isBlank_of_mem_newLine (level : ℕ) : ∀ c ∈ (newLine level).toList, isBlank c = true := by
  rw [newLine, String.toList_ofList, List.forall_mem_cons]
  refine ⟨rfl, fun c hc => ?_⟩
  rw [List.eq_of_mem_replicate hc]
  rfl

theorem isBlank_of_mem_space : ∀ c ∈ [' '], isBlank c = true :=
  List.forall_mem_singleton.mpr rfl

theorem skipBlanks_newLine {c : Char} (hc : isBlank c = false) (level : ℕ) (cs : List Char) :
    skipBlanks ((newLine level).toList ++ [c] ++ cs) = c :: cs := by
  rw [List.append_assoc, skipBlanks_append (isBlank_of_mem_newLine level), List.singleton_append,
    skipBlanks_cons hc]

theorem value_append {blanks : List Char} (h : ∀ c ∈ blanks, isBlank c = true) (fuel depth : ℕ)
    (cs : List Char) : value fuel depth (blanks ++ cs) = value fuel depth cs := by
  cases fuel with
  | zero => rfl
  | succ fuel =>
    unfold value
    rw [skipBlanks_append h]

theorem items_append {blanks : List Char} (h : ∀ c ∈ blanks, isBlank c = true) (fuel depth : ℕ)
    (done : List Json) (cs : List Char) :
    items fuel depth done (blanks ++ cs) = items fuel depth done cs := by
  cases fuel with
  | zero => rfl
  | succ fuel => rw [items, items, value_append h]

theorem afterName?_append {blanks : List Char} (h : ∀ c ∈ blanks, isBlank c = true)
    (cs : List Char) : afterName? (blanks ++ cs) = afterName? cs := by
  rw [afterName?, afterName?, skipBlanks_append h]

theorem members_append {blanks : List Char} (h : ∀ c ∈ blanks, isBlank c = true) (fuel depth : ℕ)
    (done : Option (List (String × Json))) (cs : List Char) :
    members fuel depth done (blanks ++ cs) = members fuel depth done cs := by
  cases fuel with
  | zero => rfl
  | succ fuel => rw [members, members, afterName?_append h]

theorem afterName?_quote (name : String) (cs : List Char) :
    afterName? ((quote name).toList ++ ':' :: cs) = some (some name, cs) := by
  have hcolon : skipBlanks (':' :: cs) = ':' :: cs := skipBlanks_cons rfl cs
  rw [afterName?, toList_quote, List.cons_append, skipBlanks_cons rfl, List.append_assoc,
    List.singleton_append]
  simp only [quotedText_flatMap, Option.bind_some, hcolon]

/-! ## Leaves -/

/-- Whether a document is read from a text, however it goes on after that. -/
structure Reads (depth : ℕ) (cs : List Char) (v : Json) : Prop where
  starts : ∃ c tail, cs = c :: tail ∧ isBlank c = false ∧ c ≠ ']'
  value_eq : ∀ (rest : List Char) (fuel : ℕ), Ends rest → 2 * (cs ++ rest).length ≤ fuel →
    value fuel depth (cs ++ rest) = some (v, rest)

theorem reads_leaf {c : Char} {cs : List Char} {v : Json} (depth : ℕ) (hblank : isBlank c = false)
    (hc : c ∉ ['[', '\x7b', ']'])
    (h : ∀ rest, Ends rest → leaf (c :: cs ++ rest) = some (v, rest)) :
    Reads depth (c :: cs) v := by
  simp only [List.mem_cons, List.not_mem_nil, or_false, not_or] at hc
  refine ⟨⟨c, cs, rfl, hblank, hc.2.2⟩, ?_⟩
  intro rest fuel hrest hfuel
  rw [List.cons_append, List.length_cons] at hfuel
  obtain ⟨fuel, rfl⟩ : ∃ n, fuel = n + 1 := ⟨fuel - 1, by omega⟩
  have hne : ∀ {d tail}, c ≠ d → skipBlanks (c :: cs ++ rest) = d :: tail → False := by
    intro d tail hd heq
    rw [List.cons_append, skipBlanks_cons hblank] at heq
    exact hd (List.cons.inj heq).1
  have hleaf : value (fuel + 1) depth (c :: cs ++ rest) = leaf (skipBlanks (c :: cs ++ rest)) := by
    rw [value]
    · exact fun _ _ => hne hc.1
    · exact fun _ _ => hne hc.2.1
    · exact fun _ _ _ => hne hc.1
    · exact fun _ _ _ => hne hc.2.1
  rw [hleaf, List.cons_append, skipBlanks_cons hblank]
  exact h rest hrest

theorem reads_null (depth : ℕ) : Reads depth "null".toList null :=
  reads_leaf depth rfl (by decide) fun _ _ => rfl

theorem reads_bool (depth : ℕ) (b : Bool) :
    Reads depth (if b then "true" else "false").toList (bool b) := by
  cases b with
  | true => exact reads_leaf depth rfl (by decide) fun _ _ => rfl
  | false => exact reads_leaf depth rfl (by decide) fun _ _ => rfl

theorem reads_text (depth : ℕ) (s : String) : Reads depth (quote s).toList (text s) := by
  rw [toList_quote]
  refine reads_leaf depth rfl (by decide) fun rest _ => ?_
  rw [List.cons_append, leaf, List.append_assoc, List.singleton_append, quotedText_flatMap]
  rfl

theorem reads_whole (depth : ℕ) {n : ℤ} (hn : FitsWord n) :
    Reads depth n.repr.toList (whole n) := by
  obtain ⟨c, cs, heq, hstart⟩ := repr_eq_cons n
  have hc : c ∉ [' ', '\n', '\t', '\r', '[', '\x7b', ']', '"', 'n', 't', 'f'] := by
    have hothers : ∀ d ∈ [' ', '\n', '\t', '\r', '[', '\x7b', ']', '"', 'n', 't', 'f'],
        d ≠ '-' ∧ d.isDigit = false := by simp [Char.isDigit]
    intro hmem
    obtain ⟨hsign, hdigit⟩ := hothers c hmem
    rcases Int.lt_or_le n 0 with hn | hn
    · exact hsign (hstart.1 hn)
    · rw [hstart.2 hn] at hdigit
      cases hdigit
  simp only [List.mem_cons, List.not_mem_nil, or_false, not_or] at hc
  rw [heq]
  refine reads_leaf depth (by simp [isBlank, hc]) (by simp [hc]) fun rest hrest => ?_
  have hleaf : leaf (c :: cs ++ rest) = number (c :: cs ++ rest) := by
    rw [List.cons_append, leaf] <;> simp [hc]
  rw [hleaf, ← heq, number_repr hn hrest]

/-! ## Indented texts -/

mutual

/-- What is written goes on after the text written so far. -/
theorem toList_writeIndented (out : String) (level : ℕ) (v : Json) :
    (writeIndented out level v).toList = out.toList ++ (writeIndented "" level v).toList := by
  cases v with
  | array items =>
    rw [writeIndented, writeIndented, toList_writeIndentedItems (out.push '['),
      toList_writeIndentedItems ("".push '['), String.toList_push, List.append_assoc]
    rfl
  | object members =>
    rw [writeIndented, writeIndented, toList_writeIndentedMembers (out.push '\x7b'),
      toList_writeIndentedMembers ("".push '\x7b'), String.toList_push, List.append_assoc]
    rfl
  | _ => simp [writeIndented]

theorem toList_writeIndentedItems (out : String) (level : ℕ) (first : Bool) (items : List Json) :
    (writeIndentedItems out level first items).toList =
      out.toList ++ (writeIndentedItems "" level first items).toList := by
  cases items with
  | nil => cases first <;> simp [writeIndentedItems]
  | cons item rest =>
    rw [writeIndentedItems, writeIndentedItems, toList_writeIndentedItems _ _ _ rest,
      toList_writeIndented, toList_writeIndentedItems (writeIndented _ _ item),
      toList_writeIndented (_ ++ newLine (level + 1))]
    cases first <;> simp

theorem toList_writeIndentedMembers (out : String) (level : ℕ) (first : Bool)
    (members : List (String × Json)) :
    (writeIndentedMembers out level first members).toList =
      out.toList ++ (writeIndentedMembers "" level first members).toList := by
  cases members with
  | nil => cases first <;> simp [writeIndentedMembers]
  | cons p rest =>
    obtain ⟨name, v⟩ := p
    rw [writeIndentedMembers, writeIndentedMembers, toList_writeIndentedMembers _ _ _ rest,
      toList_writeIndented, toList_writeIndentedMembers (writeIndented _ _ v),
      toList_writeIndented (_ ++ quote name ++ ": ")]
    cases first <;> simp

end

def documentText (level : ℕ) (v : Json) : List Char := (writeIndented "" level v).toList

/-- The text of items with the closing bracket, with a comma first if others are before them. -/
def itemsText (level : ℕ) (first : Bool) (items : List Json) : List Char :=
  (writeIndentedItems "" level first items).toList

def membersText (level : ℕ) (first : Bool) (members : List (String × Json)) : List Char :=
  (writeIndentedMembers "" level first members).toList

theorem itemsText_nil (level : ℕ) : itemsText level false [] = (newLine level).toList ++ [']'] := by
  simp [itemsText, writeIndentedItems]

theorem itemsText_first (level : ℕ) (item : Json) (rest : List Json) :
    itemsText level true (item :: rest) = (newLine (level + 1)).toList ++
      (documentText (level + 1) item ++ itemsText level false rest) := by
  rw [itemsText, writeIndentedItems, toList_writeIndentedItems, toList_writeIndented]
  simp [itemsText, documentText]

theorem itemsText_cons (level : ℕ) (item : Json) (rest : List Json) :
    itemsText level false (item :: rest) = ',' :: itemsText level true (item :: rest) := by
  rw [itemsText_first, itemsText, writeIndentedItems, toList_writeIndentedItems,
    toList_writeIndented]
  simp [itemsText, documentText]

theorem membersText_nil (level : ℕ) :
    membersText level false [] = (newLine level).toList ++ ['\x7d'] := by
  simp [membersText, writeIndentedMembers]

theorem membersText_first (level : ℕ) (p : String × Json) (rest : List (String × Json)) :
    membersText level true (p :: rest) = (newLine (level + 1)).toList ++
      ((quote p.1).toList ++ ':' ::
        ([' '] ++ (documentText (level + 1) p.2 ++ membersText level false rest))) := by
  rw [membersText, writeIndentedMembers, toList_writeIndentedMembers, toList_writeIndented]
  simp [membersText, documentText]

theorem membersText_cons (level : ℕ) (p : String × Json) (rest : List (String × Json)) :
    membersText level false (p :: rest) = ',' :: membersText level true (p :: rest) := by
  rw [membersText_first, membersText, writeIndentedMembers, toList_writeIndentedMembers,
    toList_writeIndented]
  simp [membersText, documentText]

theorem ends_newLine (level : ℕ) (cs : List Char) : Ends ((newLine level).toList ++ cs) := by
  rw [newLine, String.toList_ofList]
  rintro c ⟨⟩
  exact Or.inr rfl

theorem ends_itemsText (level : ℕ) (items : List Json) (cs : List Char) :
    Ends (itemsText level false items ++ cs) := by
  cases items with
  | nil =>
    rw [itemsText_nil, List.append_assoc]
    exact ends_newLine level _
  | cons item rest =>
    rw [itemsText_cons]
    rintro c ⟨⟩
    exact Or.inl rfl

theorem ends_membersText (level : ℕ) (members : List (String × Json)) (cs : List Char) :
    Ends (membersText level false members ++ cs) := by
  cases members with
  | nil =>
    rw [membersText_nil, List.append_assoc]
    exact ends_newLine level _
  | cons p rest =>
    rw [membersText_cons]
    rintro c ⟨⟩
    exact Or.inl rfl

/-! ## Arrays and objects -/

theorem value_itemsText {depth level : ℕ} {item : Json}
    (h : Reads depth (documentText (level + 1) item) item) (rest : List Json) (cs : List Char)
    (fuel : ℕ) (hfuel : 2 * (itemsText level true (item :: rest) ++ cs).length ≤ fuel) :
    value fuel depth (itemsText level true (item :: rest) ++ cs) =
      some (item, itemsText level false rest ++ cs) := by
  rw [itemsText_first, List.append_assoc, List.length_append, List.append_assoc] at hfuel
  rw [itemsText_first, List.append_assoc, value_append (isBlank_of_mem_newLine _),
    List.append_assoc]
  exact h.value_eq _ fuel (ends_itemsText level rest cs) (by omega)

/-- The items of an array are read one by one, after the ones already read. -/
theorem items_itemsText {depth level : ℕ} {item : Json} {rest : List Json}
    (h : ∀ v ∈ item :: rest, Reads depth (documentText (level + 1) v) v) (done : List Json)
    (cs : List Char) (fuel : ℕ)
    (hfuel : 2 * (itemsText level true (item :: rest) ++ cs).length ≤ fuel) :
    items (fuel + 1) depth done (itemsText level true (item :: rest) ++ cs) =
      some (array (done.reverse ++ item :: rest), cs) := by
  induction rest generalizing item done fuel with
  | nil =>
    have hitem := value_itemsText (h item List.mem_cons_self) [] cs fuel hfuel
    have hclose : skipBlanks (itemsText level false [] ++ cs) = ']' :: cs := by
      rw [itemsText_nil, skipBlanks_newLine rfl]
    rw [items]
    simp only [hitem, hclose, List.reverse_cons]
  | cons next rest ih =>
    have hitem := value_itemsText (h item List.mem_cons_self) (next :: rest) cs fuel hfuel
    have hcomma : skipBlanks (itemsText level false (next :: rest) ++ cs) =
        ',' :: (itemsText level true (next :: rest) ++ cs) := by
      rw [itemsText_cons, List.cons_append, skipBlanks_cons rfl]
    have hlength : (itemsText level true (next :: rest) ++ cs).length <
        (itemsText level true (item :: next :: rest) ++ cs).length := by
      simp only [itemsText_first level item, itemsText_cons, List.length_append, List.length_cons]
      omega
    -- The comma pays for the step that enters the next item.
    obtain ⟨fuel, rfl⟩ : ∃ n, fuel = n + 1 := ⟨fuel - 1, by omega⟩
    have hrest := ih (fun v hv => h v (List.mem_cons_of_mem _ hv)) (item :: done) fuel (by omega)
    rw [List.reverse_cons, List.append_assoc, List.singleton_append] at hrest
    rw [items]
    simp only [hitem, hcomma, hrest]

theorem afterName?_membersText (level : ℕ) (p : String × Json) (rest : List (String × Json))
    (cs : List Char) :
    afterName? (membersText level true (p :: rest) ++ cs) = some (some p.1,
      [' '] ++ (documentText (level + 1) p.2 ++ (membersText level false rest ++ cs))) := by
  rw [membersText_first, List.append_assoc, afterName?_append (isBlank_of_mem_newLine _),
    List.append_assoc, List.cons_append, afterName?_quote, List.append_assoc, List.append_assoc]

theorem value_membersText {depth level : ℕ} {p : String × Json}
    (h : Reads depth (documentText (level + 1) p.2) p.2) (rest : List (String × Json))
    (cs : List Char) (fuel : ℕ)
    (hfuel : 2 * (membersText level true (p :: rest) ++ cs).length ≤ fuel) :
    value fuel depth
        ([' '] ++ (documentText (level + 1) p.2 ++ (membersText level false rest ++ cs))) =
      some (p.2, membersText level false rest ++ cs) := by
  have hlength : (documentText (level + 1) p.2 ++ (membersText level false rest ++ cs)).length ≤
      (membersText level true (p :: rest) ++ cs).length := by
    simp only [membersText_first, List.length_append, List.length_cons]
    omega
  rw [value_append isBlank_of_mem_space]
  exact h.value_eq _ fuel (ends_membersText level rest cs) (by omega)

/-- The members of an object are read one by one, after the ones already read. -/
theorem members_membersText {depth level : ℕ} {p : String × Json} {rest : List (String × Json)}
    (h : ∀ q ∈ p :: rest, Reads depth (documentText (level + 1) q.2) q.2)
    (done : List (String × Json)) (cs : List Char) (fuel : ℕ)
    (hfuel : 2 * (membersText level true (p :: rest) ++ cs).length ≤ fuel) :
    members (fuel + 1) depth (some done) (membersText level true (p :: rest) ++ cs) =
      some (object (done.reverse ++ p :: rest), cs) := by
  induction rest generalizing p done fuel with
  | nil =>
    have hvalue := value_membersText (h p List.mem_cons_self) [] cs fuel hfuel
    have hclose : skipBlanks (membersText level false [] ++ cs) = '\x7d' :: cs := by
      rw [membersText_nil, skipBlanks_newLine rfl]
    rw [members]
    simp only [afterName?_membersText, hvalue, hclose, Option.bind_some, Option.map_some,
      Option.elim_some, List.reverse_cons]
  | cons next rest ih =>
    have hvalue := value_membersText (h p List.mem_cons_self) (next :: rest) cs fuel hfuel
    have hcomma : skipBlanks (membersText level false (next :: rest) ++ cs) =
        ',' :: (membersText level true (next :: rest) ++ cs) := by
      rw [membersText_cons, List.cons_append, skipBlanks_cons rfl]
    have hlength : (membersText level true (next :: rest) ++ cs).length <
        (membersText level true (p :: next :: rest) ++ cs).length := by
      simp only [membersText_first level p, membersText_cons, List.length_append, List.length_cons]
      omega
    obtain ⟨fuel, rfl⟩ : ∃ n, fuel = n + 1 := ⟨fuel - 1, by omega⟩
    have hrest := ih (fun q hq => h q (List.mem_cons_of_mem _ hq)) (p :: done) fuel (by omega)
    rw [List.reverse_cons, List.append_assoc, List.singleton_append] at hrest
    rw [members]
    simp only [afterName?_membersText, hvalue, hcomma, Option.bind_some, Option.map_some, hrest]

theorem value_bracket (fuel depth : ℕ) (cs : List Char) :
    value (fuel + 1) (depth + 1) ('[' :: cs) =
      match skipBlanks cs with
      | ']' :: rest => some (array [], rest)
      | cs => items fuel depth [] cs := by
  unfold value
  rw [skipBlanks_cons rfl]
  rfl

theorem value_brace (fuel depth : ℕ) (cs : List Char) :
    value (fuel + 1) (depth + 1) ('\x7b' :: cs) =
      match skipBlanks cs with
      | '\x7d' :: rest => some (object [], rest)
      | cs => members fuel depth (some []) cs := by
  unfold value
  rw [skipBlanks_cons rfl]
  rfl

theorem reads_array {depth level : ℕ} {items : List Json}
    (h : ∀ v ∈ items, Reads depth (documentText (level + 1) v) v) :
    Reads (depth + 1) (documentText level (array items)) (array items) := by
  have htext : documentText level (array items) = '[' :: itemsText level true items := by
    rw [documentText, writeIndented, toList_writeIndentedItems]
    rfl
  rw [htext]
  refine ⟨⟨'[', _, rfl, rfl, by decide⟩, ?_⟩
  intro rest fuel _ hfuel
  rw [List.cons_append, List.length_cons] at hfuel
  obtain ⟨fuel, rfl⟩ : ∃ n, fuel = n + 2 := ⟨fuel - 2, by omega⟩
  rw [List.cons_append, value_bracket]
  cases items with
  | nil =>
    have hnone : itemsText level true [] = [']'] := by simp [itemsText, writeIndentedItems]
    rw [hnone, List.singleton_append, skipBlanks_cons rfl]
    rfl
  | cons item items =>
    -- The reader looks for the closing bracket first, with which no item starts.
    obtain ⟨c, tail, hc, hblank, hclose⟩ := (h item List.mem_cons_self).starts
    have hitems := items_itemsText h [] rest fuel (by omega)
    rw [itemsText_first, List.append_assoc, items_append (isBlank_of_mem_newLine _), hc,
      List.cons_append, List.cons_append] at hitems
    rw [itemsText_first, List.append_assoc, skipBlanks_append (isBlank_of_mem_newLine _), hc,
      List.cons_append, List.cons_append, skipBlanks_cons hblank]
    split
    next heq => exact absurd (List.cons.inj heq).1 hclose
    next => exact hitems

theorem reads_object {depth level : ℕ} {members : List (String × Json)}
    (h : ∀ p ∈ members, Reads depth (documentText (level + 1) p.2) p.2) :
    Reads (depth + 1) (documentText level (object members)) (object members) := by
  have htext : documentText level (object members) = '\x7b' :: membersText level true members := by
    rw [documentText, writeIndented, toList_writeIndentedMembers]
    rfl
  rw [htext]
  refine ⟨⟨'\x7b', _, rfl, rfl, by decide⟩, ?_⟩
  intro rest fuel _ hfuel
  rw [List.cons_append, List.length_cons] at hfuel
  obtain ⟨fuel, rfl⟩ : ∃ n, fuel = n + 2 := ⟨fuel - 2, by omega⟩
  rw [List.cons_append, value_brace]
  cases members with
  | nil =>
    have hnone : membersText level true [] = ['\x7d'] := by
      simp [membersText, writeIndentedMembers]
    rw [hnone, List.singleton_append, skipBlanks_cons rfl]
    rfl
  | cons p members =>
    have hmembers := members_membersText h [] rest fuel (by omega)
    rw [membersText_first, List.append_assoc, members_append (isBlank_of_mem_newLine _),
      toList_quote, List.cons_append, List.cons_append] at hmembers
    rw [membersText_first, List.append_assoc, skipBlanks_append (isBlank_of_mem_newLine _),
      toList_quote, List.cons_append, List.cons_append, skipBlanks_cons rfl]
    exact hmembers

/-! ## Documents -/

/-- Whether a document has no doubles, only numbers of 64 bits, and at most that many arrays and
objects within one another. -/
inductive Lossless : ℕ → Json → Prop
  | null {depth : ℕ} : Lossless depth null
  | bool {depth : ℕ} (b : Bool) : Lossless depth (bool b)
  | whole {depth : ℕ} {n : ℤ} (h : FitsWord n) : Lossless depth (whole n)
  | text {depth : ℕ} (s : String) : Lossless depth (text s)
  | array {depth : ℕ} {items : List Json} (h : ∀ v ∈ items, Lossless depth v) :
    Lossless (depth + 1) (array items)
  | object {depth : ℕ} {members : List (String × Json)} (h : ∀ p ∈ members, Lossless depth p.2) :
    Lossless (depth + 1) (object members)

@[simp] theorem lossless_null (depth : ℕ) : Lossless depth null := .null

@[simp] theorem lossless_bool (depth : ℕ) (b : Bool) : Lossless depth (bool b) := .bool b

@[simp] theorem lossless_whole (depth : ℕ) (n : ℤ) : Lossless depth (whole n) ↔ FitsWord n :=
  ⟨fun | .whole h => h, .whole⟩

@[simp] theorem lossless_text (depth : ℕ) (s : String) : Lossless depth (text s) := .text s

@[simp] theorem lossless_array (depth : ℕ) (items : List Json) :
    Lossless (depth + 1) (array items) ↔ ∀ v ∈ items, Lossless depth v :=
  ⟨fun | .array h => h, .array⟩

@[simp] theorem lossless_object (depth : ℕ) (members : List (String × Json)) :
    Lossless (depth + 1) (object members) ↔ ∀ p ∈ members, Lossless depth p.2 :=
  ⟨fun | .object h => h, .object⟩

theorem Lossless.reads {depth : ℕ} {v : Json} (h : Lossless depth v) (level : ℕ) :
    Reads depth (documentText level v) v := by
  induction h generalizing level with
  | null =>
    rw [documentText, writeIndented]
    exact reads_null _
  | bool b =>
    rw [documentText, writeIndented, String.empty_append]
    exact reads_bool _ b
  | whole hn =>
    rw [documentText, writeIndented, String.empty_append]
    exact reads_whole _ hn
  | text s =>
    rw [documentText, writeIndented, String.empty_append]
    exact reads_text _ s
  | array _ ih => exact reads_array fun v hv => ih v hv (level + 1)
  | object _ ih => exact reads_object fun p hp => ih p hp (level + 1)

/-- The indented text of a document is read back. -/
theorem parse?_indented {v : Json} (h : v.Lossless maxDepth) : parse? v.indented = some v := by
  have hread : value (2 * v.indented.toList.length + 2) maxDepth v.indented.toList =
      some (v, []) := by
    have hvalue := (h.reads 0).value_eq [] (2 * v.indented.toList.length + 2) (by rintro c ⟨⟩)
      (by rw [List.append_nil]; exact Nat.le_add_right _ 2)
    rwa [List.append_nil] at hvalue
  rw [parse?]
  simp only [hread]
  rfl

end BlockQuery.Json
