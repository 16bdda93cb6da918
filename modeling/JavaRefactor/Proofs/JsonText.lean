import JavaRefactor.Json.Printer
import JavaRefactor.Json.Reader
import JavaRefactor.Proofs.Decimal
import Mathlib.Data.List.TakeWhile
import Mathlib.Tactic.SplitIfs

/-! # Reading what was written

A written value falls into the tokens it consists of, whatever the layout puts between them, and
the tokens are put together to the same value again.
-/

namespace JavaRefactor

namespace Json

/-! ### Words -/

theorem isWhole_ofNat (n : Nat) : isWhole (Decimal.ofNat n) := by
  rcases Nat.eq_zero_or_pos n with rfl | hn
  · rfl
  · have hhead := Decimal.head?_ofNat_ne_zero hn
    unfold isWhole
    split
    next h => exact absurd h (Decimal.ofNat_ne_nil n)
    next => rfl
    next h => simp [h] at hhead
    next => exact List.all_eq_true.mpr fun c hc => Decimal.isDigit_of_mem_ofNat hc

theorem takeWhile_ofNat (n : Nat) :
    (Decimal.ofNat n).takeWhile Char.isDigit = Decimal.ofNat n :=
  List.takeWhile_eq_self_iff.mpr fun _ => Decimal.isDigit_of_mem_ofNat

theorem dropWhile_ofNat (n : Nat) : (Decimal.ofNat n).dropWhile Char.isDigit = [] :=
  List.dropWhile_eq_nil_iff.mpr fun _ => Decimal.isDigit_of_mem_ofNat

theorem number?_ofInt (n : Int) : number? (Decimal.ofInt n) = some (.int n) := by
  cases n with
  | ofNat n =>
    have hhead : (Decimal.ofNat n).head? ≠ some '-' := by
      intro h
      have := Decimal.isDigit_of_mem_ofNat (List.mem_of_head? h)
      simp at this
    simp [number?, Decimal.ofInt, hhead, takeWhile_ofNat, dropWhile_ofNat, isWhole_ofNat, isTail,
      Decimal.natural?_ofNat]
  | negSucc n =>
    simp [number?, Decimal.ofInt, takeWhile_ofNat, dropWhile_ofNat, isWhole_ofNat, isTail,
      Decimal.natural?_ofNat, Int.negSucc_eq]

theorem word?_ofInt (n : Int) : word? (Decimal.ofInt n) = some (.int n) := by
  have hnumber := number?_ofInt n
  unfold word?
  split_ifs with hnull htrue hfalse
  · cases (congrArg number? hnull).symm.trans hnumber
  · cases (congrArg number? htrue).symm.trans hnumber
  · cases (congrArg number? hfalse).symm.trans hnumber
  · exact hnumber

namespace Token

def EndsWord (cs : List Char) : Prop := ∀ c, cs.head? = some c → isWordChar c = false

theorem isWordChar_of_mem_ofInt {n : Int} {c : Char} (h : c ∈ Decimal.ofInt n) : isWordChar c := by
  have hdigit {m : Nat} (hc : c ∈ Decimal.ofNat m) : isWordChar c := by
    simp [isWordChar, Char.isAlphanum, Decimal.isDigit_of_mem_ofNat hc]
  cases n with
  | ofNat m => exact hdigit h
  | negSucc m =>
    rcases List.mem_cons.mp h with rfl | h
    · rfl
    · exact hdigit h

/-! ### From characters to tokens -/

variable {c : Char} {cs rest w : List Char} {token : Token}

theorem scanFrom_blank (h : isBlank c) : scanFrom .between (c :: cs) = scanFrom .between cs := by
  simp [scanFrom, next, h]

theorem scanFrom_mark (h : mark? c = some token) :
    scanFrom .between (c :: cs) = (scanFrom .between cs).map (token :: ·) := by
  have hplain : isBlank c = false ∧ isWordChar c = false ∧ c ≠ '"' := by
    unfold mark? at h
    split at h <;> first | exact ⟨rfl, rfl, by decide⟩ | cases h
  simp [scanFrom, next, hplain, h]

theorem scanFrom_marks {c' : Char} {token' : Token} (h : mark? c = some token)
    (h' : mark? c' = some token') :
    scanFrom .between (c :: c' :: cs) = (scanFrom .between cs).map ([token, token'] ++ ·) := by
  rw [scanFrom_mark h, scanFrom_mark h', Option.map_map]
  rfl

theorem scanFrom_newline (level : Nat) :
    scanFrom .between (newline level ++ cs) = scanFrom .between cs := by
  have hblanks (n : Nat) :
      scanFrom .between (List.replicate n ' ' ++ cs) = scanFrom .between cs := by
    induction n with
    | zero => rfl
    | succ n ih => rw [List.replicate_succ, List.cons_append, scanFrom_blank rfl, ih]
  rw [newline, List.cons_append, scanFrom_blank rfl, hblanks]

/-- A word ends before any other character, and the scan goes on as if it began there. -/
theorem next_inWord (rev : List Char) (h : isWordChar c = false) :
    next (.inWord rev) c = (next .between c).map fun p => (p.1, word rev.reverse :: p.2) := by
  simp only [next, h, Bool.false_eq_true, if_false]
  split_ifs
  · rfl
  · rfl
  · cases mark? c <;> rfl

theorem scanFrom_inWord (rev : List Char) (h : EndsWord rest) :
    scanFrom (.inWord rev) rest = (scanFrom .between rest).map (word rev.reverse :: ·) := by
  cases rest with
  | nil => rfl
  | cons c cs =>
    simp only [scanFrom, next_inWord rev (h c rfl)]
    cases next .between c <;> simp [Function.comp_def]

theorem scanFrom_wordChars (hw : ∀ c ∈ w, isWordChar c) (h : EndsWord rest) (rev : List Char) :
    scanFrom (.inWord rev) (w ++ rest) =
      (scanFrom .between rest).map (word (rev.reverse ++ w) :: ·) := by
  induction w generalizing rev with
  | nil => simpa using scanFrom_inWord rev h
  | cons c w ih =>
    obtain ⟨hc, hw⟩ := List.forall_mem_cons.mp hw
    simpa [scanFrom, next, hc, Function.comp_def] using ih hw (c :: rev)

theorem isBlank_of_isWordChar (h : isWordChar c) : isBlank c = false := by
  by_contra hb
  simp only [isBlank, Bool.not_eq_false, Bool.or_eq_true, decide_eq_true_eq] at hb
  rcases hb with ((rfl | rfl) | rfl) | rfl <;> cases h

theorem scanFrom_word (hne : w ≠ []) (hw : w.all isWordChar) (h : EndsWord rest) :
    scanFrom .between (w ++ rest) = (scanFrom .between rest).map (word w :: ·) := by
  cases w with
  | nil => exact absurd rfl hne
  | cons c w =>
    obtain ⟨hc, hw⟩ := List.forall_mem_cons.mp (List.all_eq_true.mp hw)
    simpa [scanFrom, next, hc, isBlank_of_isWordChar hc] using scanFrom_wordChars hw h [c]

theorem hexDigit?_digitChar : ∀ d < 16, hexDigit? (Nat.digitChar d) = some d := by
  decide

theorem next_inHex {d : Nat} (rev : List Nat) (left value : Nat) (hd : d < 16) :
    next (.inHex rev left value) (Nat.digitChar d) = some (match left with
      | 0 => (.inText ((16 * value + d) :: rev), [])
      | left + 1 => (.inHex rev left (16 * value + d), [])) := by
  rw [next, hexDigit?_digitChar d hd]
  cases left <;> rfl

theorem scanFrom_control (h : c.toNat < 0x20) (rev : List Nat) :
    scanFrom (.inText rev) (['\\', 'u', '0', '0', Nat.digitChar (c.toNat / 16),
      Nat.digitChar (c.toNat % 16)] ++ cs) = scanFrom (.inText (c.toNat :: rev)) cs := by
  have hopen : next (.inText rev) '\\' = some (.inEscape rev, []) := rfl
  have hu : next (.inEscape rev) 'u' = some (.inHex rev 3 0, []) := rfl
  have hzero (left : Nat) : next (.inHex rev (left + 1) 0) '0' = some (.inHex rev left 0, []) := rfl
  have hhigh := next_inHex rev 1 0 (show c.toNat / 16 < 16 by omega)
  have hlow := next_inHex rev 0 (c.toNat / 16) (show c.toNat % 16 < 16 by omega)
  simp only [Nat.mul_zero, Nat.zero_add, Nat.div_add_mod] at hhigh hlow
  simp [scanFrom, hopen, hu, hzero, hhigh, hlow]

/-- The three ways to write a character: with a letter of its own, by its number, or as it is. -/
theorem escape_cases (c : Char) :
    (∃ letter, escape c = ['\\', letter] ∧ escaped? letter = some c ∧ letter ≠ 'u') ∨
    (c.toNat < 0x20 ∧ escape c =
      ['\\', 'u', '0', '0', Nat.digitChar (c.toNat / 16), Nat.digitChar (c.toNat % 16)]) ∨
    (¬ c.toNat < 0x20 ∧ c ≠ '"' ∧ c ≠ '\\' ∧ escape c = [c]) := by
  by_cases h : c = '"' ∨ c = '\\' ∨ c = '\n' ∨ c = '\r' ∨ c = '\t' ∨ c = '\x08' ∨ c = '\x0c'
  · refine Or.inl ?_
    rcases h with rfl | rfl | rfl | rfl | rfl | rfl | rfl
    all_goals exact ⟨_, rfl, rfl, by decide⟩
  · simp only [not_or] at h
    by_cases hcontrol : c.toNat < 0x20
    · exact Or.inr (Or.inl ⟨hcontrol, by simp only [escape, h, hcontrol, if_false, if_true]⟩)
    · exact Or.inr (Or.inr ⟨hcontrol, h.1, h.2.1,
        by simp only [escape, h, hcontrol, if_false]⟩)

theorem scanFrom_escape (c : Char) (rev : List Nat) :
    scanFrom (.inText rev) (escape c ++ cs) = scanFrom (.inText (c.toNat :: rev)) cs := by
  rcases escape_cases c with ⟨letter, he, hletter, hu⟩ | ⟨hcontrol, he⟩ | ⟨hcontrol, hq, hs, he⟩
  · rw [he]
    simp [scanFrom, next, hu, hletter]
  · rw [he, scanFrom_control hcontrol]
  · rw [he]
    simp [scanFrom, next, hq, hs, hcontrol]

theorem scanFrom_inText (s : List Char) (rev : List Nat) (rest : List Char) :
    scanFrom (.inText rev) (s.flatMap escape ++ '"' :: rest) = (scanFrom .between rest).map
      (text ((decodeUnits (rev.reverse ++ s.map Char.toNat)).map String.ofList) :: ·) := by
  induction s generalizing rev with
  | nil => simp [scanFrom, next]
  | cons c s ih =>
    rw [List.flatMap_cons, List.append_assoc, scanFrom_escape, ih]
    simp

theorem not_isSurrogate (c : Char) :
    isHighSurrogate c.toNat = false ∧ isLowSurrogate c.toNat = false := by
  have h : c.toNat < 0xD800 ∨ 0xDFFF < c.toNat ∧ c.toNat < 0x110000 := c.valid
  simp only [isHighSurrogate, isLowSurrogate, Bool.and_eq_false_iff, decide_eq_false_iff_not]
  omega

theorem decodeUnits_toNat (s : List Char) : decodeUnits (s.map Char.toNat) = some s := by
  induction s with
  | nil => rfl
  | cons c s ih =>
    obtain ⟨hhigh, hlow⟩ := not_isSurrogate c
    cases s with
    | nil => simp [decodeUnits, hhigh, hlow]
    | cons c' s =>
      rw [List.map_cons, List.map_cons, decodeUnits]
      rw [List.map_cons] at ih
      simp [hhigh, hlow, ih]

theorem scanFrom_quote (s : String) :
    scanFrom .between (quote s ++ rest) = (scanFrom .between rest).map (text (some s) :: ·) := by
  have hopen (cs : List Char) : scanFrom .between ('"' :: cs) = scanFrom (.inText []) cs := by
    simp [scanFrom, show next .between '"' = some (.inText [], []) from rfl]
  have htext := scanFrom_inText s.toList [] rest
  rw [List.reverse_nil, List.nil_append, decodeUnits_toNat] at htext
  simpa [quote, hopen] using htext

end Token

mutual

/-- The value, and all that it holds, can be written. -/
def isPlain : Json → Bool
  | .other => false
  | .arr items => arePlain items
  | .obj fields => fieldsArePlain fields
  | _ => true

def arePlain : List Json → Bool
  | [] => true
  | item :: items => isPlain item && arePlain items

def fieldsArePlain : List (String × Json) → Bool
  | [] => true
  | (_, value) :: fields => isPlain value && fieldsArePlain fields

end

mutual

def tokens : Json → List Token
  | .null | .other => [.word "null".toList]
  | .bool true => [.word "true".toList]
  | .bool false => [.word "false".toList]
  | .int n => [.word (Decimal.ofInt n)]
  | .str s => [.text (some s)]
  | .arr [] => [.openList, .closeList]
  | .arr (item :: items) => .openList :: (tokens item ++ (itemTokens items ++ [.closeList]))
  | .obj [] => [.openObject, .closeObject]
  | .obj ((name, value) :: fields) =>
    .openObject :: .text (some name) :: .colon ::
      (tokens value ++ (fieldTokens fields ++ [.closeObject]))

def itemTokens : List Json → List Token
  | [] => []
  | item :: items => .comma :: (tokens item ++ itemTokens items)

def fieldTokens : List (String × Json) → List Token
  | [] => []
  | (name, value) :: fields =>
    .comma :: .text (some name) :: .colon :: (tokens value ++ fieldTokens fields)

end

section Scan

open Token

variable {level : Nat} {rest : List Char}

theorem render_arr (item : Json) (items : List Json) : render level (.arr (item :: items)) =
    '[' :: newline (level + 1) ++ render (level + 1) item ++ renderItems (level + 1) items ++
      newline level ++ [']'] := rfl

theorem render_obj (name : String) (value : Json) (fields : List (String × Json)) :
    render level (.obj ((name, value) :: fields)) =
      '\x7b' :: newline (level + 1) ++ quote name ++ ':' :: ' ' :: render (level + 1) value ++
        renderFields (level + 1) fields ++ newline level ++ ['\x7d'] := rfl

theorem endsWord_cons {c : Char} (h : isWordChar c = false) : EndsWord (c :: rest) := by
  intro c' hc
  exact Option.some.inj hc ▸ h

theorem endsWord_newline : EndsWord (newline level ++ rest) := endsWord_cons rfl

theorem endsWord_renderItems (items : List Json) (h : EndsWord rest) :
    EndsWord (renderItems level items ++ rest) := by
  cases items with
  | nil => exact h
  | cons item items => exact endsWord_cons rfl

theorem endsWord_renderFields (fields : List (String × Json)) (h : EndsWord rest) :
    EndsWord (renderFields level fields ++ rest) := by
  cases fields with
  | nil => exact h
  | cons field fields => exact endsWord_cons rfl

mutual

theorem scanFrom_render (level : Nat) (v : Json) {rest : List Char} (h : EndsWord rest) :
    scanFrom .between (render level v ++ rest) = (scanFrom .between rest).map (tokens v ++ ·) := by
  match v with
  | .null | .other => exact scanFrom_word (w := "null".toList) (by decide) (by decide) h
  | .bool true => exact scanFrom_word (w := "true".toList) (by decide) (by decide) h
  | .bool false => exact scanFrom_word (w := "false".toList) (by decide) (by decide) h
  | .int n =>
    have hne : Decimal.ofInt n ≠ [] := by
      cases n with
      | ofNat n => exact Decimal.ofNat_ne_nil n
      | negSucc n => simp [Decimal.ofInt]
    exact scanFrom_word hne (List.all_eq_true.mpr fun c => isWordChar_of_mem_ofInt) h
  | .str s => exact scanFrom_quote s
  | .arr [] => exact scanFrom_marks rfl rfl
  | .arr (item :: items) =>
    simp only [render_arr, tokens, List.cons_append, List.append_assoc, List.nil_append]
    rw [scanFrom_mark rfl, scanFrom_newline,
      scanFrom_render _ item (endsWord_renderItems items endsWord_newline),
      scanFrom_renderItems _ items endsWord_newline, scanFrom_newline, scanFrom_mark rfl]
    simp only [Option.map_map, Function.comp_def]
  | .obj [] => exact scanFrom_marks rfl rfl
  | .obj ((name, value) :: fields) =>
    simp only [render_obj, tokens, List.cons_append, List.append_assoc, List.nil_append]
    rw [scanFrom_mark rfl, scanFrom_newline, scanFrom_quote, scanFrom_mark rfl, scanFrom_blank rfl,
      scanFrom_render _ value (endsWord_renderFields fields endsWord_newline),
      scanFrom_renderFields _ fields endsWord_newline, scanFrom_newline, scanFrom_mark rfl]
    simp only [Option.map_map, Function.comp_def]

theorem scanFrom_renderItems (level : Nat) (items : List Json) {rest : List Char}
    (h : EndsWord rest) : scanFrom .between (renderItems level items ++ rest) =
      (scanFrom .between rest).map (itemTokens items ++ ·) := by
  match items with
  | [] => simp [renderItems, itemTokens]
  | item :: items =>
    simp only [renderItems, itemTokens, List.cons_append, List.append_assoc]
    rw [scanFrom_mark rfl, scanFrom_newline,
      scanFrom_render _ item (endsWord_renderItems items h), scanFrom_renderItems _ items h]
    simp only [Option.map_map, Function.comp_def]

theorem scanFrom_renderFields (level : Nat) (fields : List (String × Json)) {rest : List Char}
    (h : EndsWord rest) : scanFrom .between (renderFields level fields ++ rest) =
      (scanFrom .between rest).map (fieldTokens fields ++ ·) := by
  match fields with
  | [] => simp [renderFields, fieldTokens]
  | (name, value) :: fields =>
    simp only [renderFields, fieldTokens, List.cons_append, List.append_assoc]
    rw [scanFrom_mark rfl, scanFrom_newline, scanFrom_quote, scanFrom_mark rfl, scanFrom_blank rfl,
      scanFrom_render _ value (endsWord_renderFields fields h), scanFrom_renderFields _ fields h]
    simp only [Option.map_map, Function.comp_def]

end

end Scan

/-! ### From tokens to values -/

theorem ofFields_names (fields : List (String × Json)) :
    ofFields (fields.map fun field => (some field.1, field.2)) = .obj fields := by
  have hnames : (fields.map fun field => (some field.1, field.2)).mapM
      (fun field : Option String × Json => field.1.map fun name => (name, field.2)) =
        some fields := by
    induction fields with
    | nil => rfl
    | cons field fields ih => simp [List.mapM_cons, ih]
  rw [ofFields, hnames]

namespace Reading

variable {frames : List Frame} {rest : List Token}

theorem run?_cons {reading after : Reading} {token : Token} (h : reading.feed token = some after) :
    run? reading (token :: rest) = run? after rest := by
  rw [run?, h]

/-- Behind an opening bracket stands a value, or the bracket that closes the array. -/
theorem run?_item (v : Json) :
    run? (.item frames) (v.tokens ++ rest) =
      run? (.value (.list [] :: frames)) (v.tokens ++ rest) := by
  unfold tokens
  split <;> rfl

mutual

theorem run?_tokens (v : Json) (h : v.isPlain) (frames : List Frame) (rest : List Token) :
    run? (.value frames) (v.tokens ++ rest) = run? (.after v frames) rest := by
  match v with
  | .null => rfl
  | .other => cases h
  | .bool true => rfl
  | .bool false => rfl
  | .int n => exact run?_cons (by simp [feed, startValue, word?_ofInt])
  | .str s => rfl
  | .arr [] => rfl
  | .arr (first :: items) =>
    obtain ⟨hfirst, hitems⟩ : first.isPlain ∧ arePlain items := by simpa [isPlain, arePlain] using h
    simp only [tokens, List.cons_append, List.append_assoc]
    rw [run?_cons rfl, run?_item, run?_tokens first hfirst]
    exact run?_itemTokens items hitems [] first frames rest
  | .obj [] => rfl
  | .obj ((key, first) :: fields) =>
    obtain ⟨hfirst, hfields⟩ : first.isPlain ∧ fieldsArePlain fields := by
      simpa [isPlain, fieldsArePlain] using h
    simp only [tokens, List.cons_append, List.append_assoc]
    rw [run?_cons rfl, run?_cons rfl, run?_cons rfl, run?_tokens first hfirst, ← ofFields_names]
    exact run?_fieldTokens fields hfields [] (some key) first frames rest

theorem run?_itemTokens (items : List Json) (h : arePlain items) (before : List Json) (v : Json)
    (frames : List Frame) (rest : List Token) :
    run? (.after v (.list before :: frames)) (itemTokens items ++ .closeList :: rest) =
      run? (.after (.arr (before ++ v :: items)) frames) rest := by
  match items with
  | [] => rfl
  | second :: items =>
    obtain ⟨hsecond, hitems⟩ : second.isPlain ∧ arePlain items := by simpa [arePlain] using h
    simp only [itemTokens, List.cons_append, List.append_assoc]
    rw [run?_cons rfl, run?_tokens second hsecond, run?_itemTokens items hitems]
    simp

theorem run?_fieldTokens (fields : List (String × Json)) (h : fieldsArePlain fields)
    (before : List (Option String × Json)) (key : Option String) (v : Json) (frames : List Frame)
    (rest : List Token) :
    run? (.after v (.record before key :: frames)) (fieldTokens fields ++ .closeObject :: rest) =
      run? (.after (ofFields
        (before ++ (key, v) :: fields.map fun field => (some field.1, field.2))) frames) rest := by
  match fields with
  | [] => rfl
  | (key', second) :: fields =>
    obtain ⟨hsecond, hfields⟩ : second.isPlain ∧ fieldsArePlain fields := by
      simpa [fieldsArePlain] using h
    simp only [fieldTokens, List.cons_append, List.append_assoc]
    rw [run?_cons rfl, run?_cons rfl, run?_cons rfl, run?_tokens second hsecond,
      run?_fieldTokens fields hfields]
    simp

end

end Reading

theorem scanFrom_blanks {cs : List Char} (h : ∀ c ∈ cs, Token.isBlank c) :
    Token.scanFrom .between cs = some [] := by
  induction cs with
  | nil => rfl
  | cons c cs ih =>
    obtain ⟨hc, hcs⟩ := List.forall_mem_cons.mp h
    rw [Token.scanFrom_blank hc, ih hcs]

theorem endsWord_blanks {cs : List Char} (h : ∀ c ∈ cs, Token.isBlank c) : Token.EndsWord cs := by
  intro c hc
  by_contra hword
  have hblank := h c (List.mem_of_head? hc)
  rw [Token.isBlank_of_isWordChar (by simpa using hword)] at hblank
  cases hblank

theorem parse?_pretty {v : Json} (h : v.isPlain) {blanks : String}
    (hblanks : blanks.toList.all Token.isBlank) : parse? (v.pretty ++ blanks) = some v := by
  have hblanks := List.all_eq_true.mp hblanks
  have hscan : Token.scan? (v.pretty ++ blanks).toList = some v.tokens := by
    rw [Token.scan?, String.toList_append, pretty, String.toList_ofList,
      scanFrom_render 0 v (endsWord_blanks hblanks), scanFrom_blanks hblanks]
    simp
  have hrun := Reading.run?_tokens v h [] []
  rw [List.append_nil] at hrun
  rw [parse?, hscan]
  exact hrun

end Json

end JavaRefactor
