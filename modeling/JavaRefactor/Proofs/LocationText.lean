import JavaRefactor.Proofs.Decimal
import JavaRefactor.Text.Location

/-! # Written locations

A location is written as a file, a line and a column with colons between them. The file may hold
colons, the two numbers hold none. So a text can be taken apart in one way only, whatever the file
is, and to split it from the right finds that way.
-/

namespace JavaRefactor

namespace Decimal

variable {cs ds : List Char} {bound n m : Nat}

/-- The characters are a number below `bound`: one decimal digit or more, and perhaps a plus sign
before them. -/
structure Spells (bound : Nat) (cs : List Char) (n : Nat) : Prop where
  digits : ∃ ds, (cs = ds ∨ cs = '+' :: ds) ∧ ds ≠ [] ∧ (∀ c ∈ ds, c.isDigit) ∧
    Nat.ofDigitChars 10 ds 0 = n
  lt : n < bound

theorem isDigit_of_digits? {value : Nat} (h : digits? value cs = some n) : ∀ c ∈ cs, c.isDigit := by
  induction cs generalizing value with
  | nil => simp
  | cons c cs ih =>
    obtain ⟨d, hd, hcs⟩ := Option.bind_eq_some_iff.mp h
    have hc : c.isDigit := by
      unfold digit? at hd
      split at hd
      next hc => exact hc
      next => cases hd
    exact List.forall_mem_cons.mpr ⟨hc, ih hcs⟩

theorem natural?_eq_some_iff : natural? cs = some n ↔
    cs ≠ [] ∧ (∀ c ∈ cs, c.isDigit) ∧ Nat.ofDigitChars 10 cs 0 = n := by
  cases cs with
  | nil => simp [natural?]
  | cons c cs =>
    change digits? 0 (c :: cs) = some n ↔ _
    constructor
    · intro h
      have hdigits := isDigit_of_digits? h
      rw [digits?_eq hdigits] at h
      exact ⟨by simp, hdigits, Option.some.inj h⟩
    · rintro ⟨-, hdigits, rfl⟩
      exact digits?_eq hdigits 0

theorem below?_eq_some_iff : below? bound cs = some n ↔ Spells bound cs n := by
  constructor
  · intro h
    obtain ⟨hnumber, hlt⟩ := Option.filter_eq_some_iff.mp h
    split at hnumber
    next rest => exact ⟨⟨rest, Or.inr rfl, natural?_eq_some_iff.mp hnumber⟩, by simpa using hlt⟩
    next => exact ⟨⟨cs, Or.inl rfl, natural?_eq_some_iff.mp hnumber⟩, by simpa using hlt⟩
  · rintro ⟨⟨ds, hcs, hds⟩, hlt⟩
    refine Option.filter_eq_some_iff.mpr ⟨?_, by simpa using hlt⟩
    have hnumber := natural?_eq_some_iff.mpr hds
    rcases hcs with rfl | rfl
    · split
      next rest =>
        -- a plus sign is no digit
        exact absurd (hds.2.1 '+' List.mem_cons_self) (by decide)
      next => exact hnumber
    · exact hnumber

theorem Spells.unique (h : Spells bound cs n) (h' : Spells bound cs m) : n = m :=
  Option.some.inj ((below?_eq_some_iff.mpr h).symm.trans (below?_eq_some_iff.mpr h'))

theorem Spells.colon_not_mem (h : Spells bound cs n) : ':' ∉ cs := by
  obtain ⟨ds, hcs, -, hdigits, -⟩ := h.digits
  intro hmem
  have hcolon : ':' ∈ ds := by
    rcases hcs with rfl | rfl
    · exact hmem
    · exact List.mem_of_ne_of_mem (by decide) hmem
  exact absurd (hdigits ':' hcolon) (by decide)

end Decimal

namespace Text

variable {sep : Char} {cs a b a' b' : List Char}

theorem splitLast?_eq_none_iff : splitLast? sep cs = none ↔ sep ∉ cs := by
  induction cs with
  | nil => simp [splitLast?]
  | cons c cs ih =>
    rw [splitLast?]
    cases h : splitLast? sep cs with
    | none =>
      have hcs := ih.mp h
      simp [hcs, eq_comm]
    | some parts =>
      have hcs : sep ∈ cs := Decidable.not_not.mp fun hcs => by simp [ih.mpr hcs] at h
      simp [hcs]

theorem splitLast?_append (h : sep ∉ b) : splitLast? sep (a ++ sep :: b) = some (a, b) := by
  induction a with
  | nil => simp [splitLast?, splitLast?_eq_none_iff.mpr h]
  | cons c a ih => simp [splitLast?, ih]

theorem splitLast?_eq_some_iff :
    splitLast? sep cs = some (a, b) ↔ cs = a ++ sep :: b ∧ sep ∉ b := by
  constructor
  · intro h
    induction cs generalizing a with
    | nil => simp [splitLast?] at h
    | cons c cs ih =>
      rw [splitLast?] at h
      split at h
      next before after hcs =>
        obtain ⟨rfl, rfl⟩ := Prod.mk.inj (Option.some.inj h)
        obtain ⟨rfl, hb⟩ := ih hcs
        exact ⟨rfl, hb⟩
      next hcs =>
        split at h
        next hc =>
          obtain ⟨rfl, rfl⟩ := Prod.mk.inj (Option.some.inj h)
          exact ⟨by rw [hc, List.nil_append], splitLast?_eq_none_iff.mp hcs⟩
        next => cases h
  · rintro ⟨rfl, hb⟩
    exact splitLast?_append hb

/-- The last part that is free of the separator is the same however a text is taken apart. -/
theorem append_cons_inj (hb : sep ∉ b) (hb' : sep ∉ b')
    (h : a ++ sep :: b = a' ++ sep :: b') : a = a' ∧ b = b' := by
  have heq : some (a, b) = some (a', b') := by
    rw [← splitLast?_append hb, h, splitLast?_append hb']
  exact Prod.mk.inj (Option.some.inj heq)

end Text

namespace Location

structure Spelling where
  file : String
  line : String
  col : String
  deriving DecidableEq, Repr

namespace Spelling

def text (p : Spelling) : String := p.file ++ ":" ++ p.line ++ ":" ++ p.col

/-- The parts stand for a location: line and column are numbers of 32 bits, the file is any text,
and nothing is said of bytes. -/
structure Denotes (p : Spelling) (loc : Location) : Prop where
  file : p.file = loc.file
  line : Decimal.Spells Decimal.word32 p.line.toList loc.line
  col : Decimal.Spells Decimal.word32 p.col.toList loc.col
  byteStart : loc.byteStart = none
  byteEnd : loc.byteEnd = none

variable {p q : Spelling} {loc loc' : Location}

theorem toList_text (p : Spelling) : p.text.toList =
    (p.file.toList ++ ':' :: p.line.toList) ++ ':' :: p.col.toList := by
  simp [text]

/-- A text is taken apart in one way, and then stands for one location. -/
theorem Denotes.unique (h : p.Denotes loc) (h' : q.Denotes loc') (he : p.text = q.text) :
    p = q ∧ loc = loc' := by
  have hlist := congrArg String.toList he
  rw [toList_text, toList_text] at hlist
  obtain ⟨hfront, hcol⟩ := Text.append_cons_inj h.col.colon_not_mem h'.col.colon_not_mem hlist
  obtain ⟨hfile, hline⟩ := Text.append_cons_inj h.line.colon_not_mem h'.line.colon_not_mem hfront
  obtain ⟨file, line, col⟩ := p
  obtain ⟨file', line', col'⟩ := q
  obtain rfl : file = file' := String.toList_inj.mp hfile
  obtain rfl : line = line' := String.toList_inj.mp hline
  obtain rfl : col = col' := String.toList_inj.mp hcol
  refine ⟨rfl, ?_⟩
  obtain ⟨f, l, c, s, e⟩ := loc
  obtain ⟨f', l', c', s', e'⟩ := loc'
  obtain rfl : f = f' := h.file.symm.trans h'.file
  obtain rfl : l = l' := h.line.unique h'.line
  obtain rfl : c = c' := h.col.unique h'.col
  obtain rfl : s = s' := h.byteStart.trans h'.byteStart.symm
  obtain rfl : e = e' := h.byteEnd.trans h'.byteEnd.symm
  rfl

theorem Denotes.parse?_text (h : p.Denotes loc) : parse? p.text = some loc := by
  obtain ⟨file, line, col, s, e⟩ := loc
  obtain ⟨rfl, hline, hcol, rfl, rfl⟩ := h
  have hlast := Text.splitLast?_append (a := p.file.toList ++ ':' :: p.line.toList)
    hcol.colon_not_mem
  have hfirst := Text.splitLast?_append (a := p.file.toList) hline.colon_not_mem
  simp only [parse?, toList_text, hlast, hfirst, Decimal.below?_eq_some_iff.mpr hline,
    Decimal.below?_eq_some_iff.mpr hcol, String.ofList_toList]

end Spelling

theorem exists_spelling {s : String} {loc : Location} (h : parse? s = some loc) :
    ∃ p : Spelling, p.text = s ∧ p.Denotes loc := by
  unfold parse? at h
  split at h
  next => cases h
  next rest col hlast =>
    split at h
    next => cases h
    next file line hfirst =>
      split at h
      next c l hc hl =>
        obtain rfl := Option.some.inj h
        obtain ⟨hs, -⟩ := Text.splitLast?_eq_some_iff.mp hlast
        obtain ⟨rfl, -⟩ := Text.splitLast?_eq_some_iff.mp hfirst
        refine ⟨⟨.ofList file, .ofList line, .ofList col⟩, ?_, ?_⟩
        · apply String.toList_inj.mp
          rw [hs, Spelling.toList_text]
          simp
        · exact ⟨rfl, by simpa using Decimal.below?_eq_some_iff.mp hl,
            by simpa using Decimal.below?_eq_some_iff.mp hc, rfl, rfl⟩
      next => cases h

/-- Reading accepts the texts that can be taken apart into a file, a line and a column, and gives
what the parts stand for. There is only one way to take such a text apart. -/
theorem parse?_exact (s : String) :
    (∀ loc, parse? s = some loc ↔ ∃ p : Spelling, p.text = s ∧ p.Denotes loc) ∧
      ∀ (p q : Spelling) (loc loc' : Location), p.text = s → p.Denotes loc → q.text = s →
        q.Denotes loc' → p = q ∧ loc = loc' := by
  refine ⟨fun loc => ⟨exists_spelling, ?_⟩, ?_⟩
  · rintro ⟨p, rfl, hp⟩
    exact hp.parse?_text
  · rintro p q loc loc' rfl hp hq hq'
    exact hp.unique hq' hq.symm

/-- A file with a drive letter, a line with a sign and a zero in front, and the largest column. -/
theorem parse?_exact_sample :
    parse? "C:/a.java:+042:4294967295" = some ⟨"C:/a.java", 42, 4294967295, none, none⟩ ∧
      ∀ (q : Spelling) (loc : Location), q.text = "C:/a.java:+042:4294967295" → q.Denotes loc →
        q = ⟨"C:/a.java", "+042", "4294967295"⟩ := by
  obtain ⟨hread, hunique⟩ := parse?_exact "C:/a.java:+042:4294967295"
  have hdenotes : Spelling.Denotes ⟨"C:/a.java", "+042", "4294967295"⟩
      ⟨"C:/a.java", 42, 4294967295, none, none⟩ :=
    ⟨rfl, Decimal.below?_eq_some_iff.mp rfl, Decimal.below?_eq_some_iff.mp rfl, rfl, rfl⟩
  exact ⟨(hread _).mpr ⟨_, rfl, hdenotes⟩,
    fun q loc hq h => (hunique _ _ _ _ hq h rfl hdenotes).1⟩

end Location

end JavaRefactor
