import ParityGames.Fault
import ParityGames.Text.Scanner

/-! # What scanners read

A scanner reads a value off the front of a text and leaves a rest, or it fails. Where it failed on
the way does not matter here. Every scanner has one lemma for each of these outcomes, and sequences,
options and repetitions are put together from them.
-/

namespace ParityGames.Text

/-! ## Fronts of texts -/

def Blanks (text : List Char) : Prop := ∀ c ∈ text, isBlank c = true

instance (text : List Char) : Decidable (Blanks text) :=
  decidable_of_iff (text.all isBlank = true) List.all_eq_true

theorem Blanks.nil : Blanks [] := fun _ h => nomatch h

def Stops (accept : Char → Bool) (text : List Char) : Prop :=
  ∀ c, text.head? = some c → accept c = false

section Stops

variable {accept : Char → Bool} {text front : List Char} {c : Char}

theorem Stops.nil : Stops accept [] := fun _ h => nomatch h

theorem Stops.cons (hc : accept c = false) : Stops accept (c :: text) :=
  fun _ hd => Option.some.inj hd ▸ hc

theorem Stops.dropWhile (h : Stops accept text) : text.dropWhile accept = text := by
  cases text with
  | nil => rfl
  | cons c rest => rw [List.dropWhile_cons_of_neg (by simp [h c rfl])]

theorem Stops.takeWhile (h : Stops accept text) : text.takeWhile accept = [] := by
  cases text with
  | nil => rfl
  | cons c rest => rw [List.takeWhile_cons_of_neg (by simp [h c rfl])]

theorem stops_dropWhile (accept : Char → Bool) (text : List Char) :
    Stops accept (text.dropWhile accept) := by
  intro c hc
  have hfront := List.head?_dropWhile_not accept text
  rw [hc] at hfront
  simpa using hfront

theorem Stops.mono {other : Char → Bool} (h : Stops accept text)
    (hle : ∀ c, accept c = false → other c = false) : Stops other text :=
  fun c hc => hle c (h c hc)

theorem Stops.append (h : Stops accept front) (htext : Stops accept text) :
    Stops accept (front ++ text) := by
  cases front with
  | nil => exact htext
  | cons c rest => exact .cons (h c rfl)

/-- What one class skips, a larger one skips too. -/
theorem dropWhile_dropWhile {other : Char → Bool} (h : ∀ c, accept c = true → other c = true)
    (text : List Char) : (text.dropWhile accept).dropWhile other = text.dropWhile other := by
  induction text with
  | nil => rfl
  | cons c rest ih =>
      by_cases hc : accept c = true
      · rw [List.dropWhile_cons_of_pos hc, ih, List.dropWhile_cons_of_pos (h c hc)]
      · rw [List.dropWhile_cons_of_neg hc]

theorem dropWhile_append_cons (hc : isBlank c = false) (front text : List Char) :
    (front ++ c :: text).dropWhile isBlank = front.dropWhile isBlank ++ c :: text := by
  induction front with
  | nil => exact (Stops.cons hc).dropWhile
  | cons d rest ih =>
      rw [List.cons_append]
      by_cases hd : isBlank d = true
      · rw [List.dropWhile_cons_of_pos hd, List.dropWhile_cons_of_pos hd, ih]
      · rw [List.dropWhile_cons_of_neg hd, List.dropWhile_cons_of_neg hd, List.cons_append]

theorem length_dropWhile_le (accept : Char → Bool) (text : List Char) :
    (text.dropWhile accept).length ≤ text.length :=
  (List.dropWhile_sublist accept).length_le

theorem Blanks.dropWhile (h : Blanks front) (text : List Char) :
    (front ++ text).dropWhile isBlank = text.dropWhile isBlank :=
  List.dropWhile_append_of_pos h

theorem Blanks.dropWhile_of_stops (h : Blanks front) (hstops : Stops isBlank text) :
    (front ++ text).dropWhile isBlank = text :=
  (h.dropWhile text).trans hstops.dropWhile

end Stops

theorem isDigit_of_isBlank {c : Char} (h : isBlank c = true) : c.isDigit = false := by
  simp only [isBlank, blankRanges, List.any_cons, List.any_nil, Bool.or_false, Bool.or_eq_true,
    Bool.and_eq_true, decide_eq_true_eq] at h
  have hrange : c.isDigit = true → 48 ≤ c.toNat ∧ c.toNat ≤ 57 := by
    intro hdigit
    simp only [Char.isDigit, Bool.and_eq_true, decide_eq_true_eq] at hdigit
    exact ⟨UInt32.le_iff_toNat_le.1 hdigit.1, UInt32.le_iff_toNat_le.1 hdigit.2⟩
  rw [Bool.eq_false_iff]
  intro hdigit
  have := hrange hdigit
  omega

theorem isBlank_of_isDigit {c : Char} (h : c.isDigit = true) : isBlank c = false := by
  rw [Bool.eq_false_iff]
  intro hblank
  rw [isDigit_of_isBlank hblank] at h
  cases h

/-! ## Numbers -/

theorem isDigit_of_mem_digits {n : Nat} {c : Char} (h : c ∈ Nat.toDigits 10 n) :
    c.isDigit = true :=
  Nat.isDigit_of_mem_toDigits (by decide) (by decide) h

theorem stops_digits (n : Nat) (rest : List Char) : Stops isBlank (Nat.toDigits 10 n ++ rest) := by
  obtain ⟨c, more, hdigits⟩ := List.exists_cons_of_ne_nil (@Nat.toDigits_ne_nil n 10)
  rw [hdigits]
  exact .cons (isBlank_of_isDigit (isDigit_of_mem_digits (n := n) (by simp [hdigits])))

theorem decimalValue_digits (n : Nat) : decimalValue (Nat.toDigits 10 n) = n :=
  Nat.ofDigitChars_ten_toDigits

theorem head_digits {n : Nat} (hn : 0 < n) :
    ∃ c rest, Nat.toDigits 10 n = c :: rest ∧ c ≠ '0' := by
  induction n using Nat.strongRecOn with
  | ind n ih =>
      by_cases hsmall : n < 10
      · refine ⟨n.digitChar, [], Nat.toDigits_of_lt_base hsmall, ?_⟩
        rw [Ne, Nat.digitChar_eq_zero]
        omega
      · obtain ⟨c, rest, hdigits, hc⟩ := ih (n / 10) (by omega) (by omega)
        refine ⟨c, rest ++ [(n % 10).digitChar], ?_, hc⟩
        rw [Nat.toDigits_of_base_le (by decide) (by omega), hdigits]
        rfl

namespace Scanner

variable {α β : Type} {p : Scanner α} {f : α → Scanner β} {text mid rest : List Char} {a : α}
  {b : β}

def Reads (p : Scanner α) (text : List Char) (a : α) (rest : List Char) : Prop :=
  (p text).value? = some (a, rest)

def Fails (p : Scanner α) (text : List Char) : Prop := (p text).value? = none

/-! ## Sequences -/

theorem bind_value (p : Scanner α) (f : α → Scanner β) (text : List Char) :
    ((p >>= f) text).value? = (p text).value?.bind fun entry => (f entry.1 entry.2).value? := by
  change (Scanner.bind p f text).value? = _
  unfold Scanner.bind
  rcases p text with ⟨value?, failed?⟩
  cases value? with
  | none => rfl
  | some entry => rfl

theorem Reads.bind (hp : p.Reads text a mid) (hf : (f a).Reads mid b rest) :
    (p >>= f).Reads text b rest := by
  rw [Reads, bind_value, hp]
  exact hf

theorem Fails.bind (hp : p.Fails text) : (p >>= f).Fails text := by
  rw [Fails, bind_value, hp]
  rfl

theorem reads_pure (a : α) (text : List Char) : (pure a : Scanner α).Reads text a text := rfl

/-! ## Characters -/

theorem reads_skip (accept : Char → Bool) (text : List Char) :
    (skip accept).Reads text () (text.dropWhile accept) := rfl

theorem reads_char (c : Char) (rest : List Char) : (char c).Reads (c :: rest) () rest := by
  simp [Reads, char]

theorem char_fails {c : Char} (h : text.head? ≠ some c) : (char c).Fails text := by
  cases text with
  | nil => rfl
  | cons d rest =>
      have hne : d ≠ c := fun hd => h (by rw [hd]; rfl)
      simp [Fails, char, hne, failAt]

theorem reads_keyword (word rest : List Char) : (keyword word).Reads (word ++ rest) () rest := by
  induction word with
  | nil => rfl
  | cons c word ih => exact (reads_char c (word ++ rest)).bind ih

theorem keyword_fails {c : Char} {word : List Char} (h : text.head? ≠ some c) :
    (keyword (c :: word)).Fails text :=
  (char_fails h).bind

theorem reads_span {accept : Char → Bool} {front : List Char}
    (hfront : ∀ c ∈ front, accept c = true) (hrest : Stops accept rest) :
    (span accept).Reads (front ++ rest) front rest := by
  rw [Reads, span, List.takeWhile_append_of_pos hfront, List.dropWhile_append_of_pos hfront,
    hrest.takeWhile, hrest.dropWhile, List.append_nil]

theorem reads_integer {bound n : Nat} (hn : n < bound) (hrest : Stops Char.isDigit rest) :
    (integer bound).Reads (Nat.toDigits 10 n ++ rest) n rest := by
  rcases Nat.eq_zero_or_pos n with rfl | hpos
  · rw [Nat.toDigits_zero]
    rfl
  · obtain ⟨c, digits, hdigits, hc⟩ := head_digits hpos
    have hall : ∀ d ∈ digits, d.isDigit = true := fun d hd =>
      isDigit_of_mem_digits (n := n) (by rw [hdigits]; exact List.mem_cons_of_mem c hd)
    have hfirst : c.isDigit = true := isDigit_of_mem_digits (n := n) (by simp [hdigits])
    have hspan : (span Char.isDigit).Reads (digits ++ rest) digits rest := reads_span hall hrest
    simp only [Reads, span, Option.some.injEq, Prod.mk.injEq] at hspan
    have hvalue := decimalValue_digits n
    rw [hdigits] at hvalue ⊢
    simp only [Reads, integer, List.cons_append, hc, hfirst, hspan, hvalue, hn, if_true, if_false]

/-! ## Padding, options and repetitions -/

theorem padded_value (p : Scanner α) (text : List Char) :
    ((padded p) text).value? = (p (text.dropWhile isBlank)).value?.map fun entry =>
      (entry.1, entry.2.dropWhile isBlank) := by
  unfold padded
  rw [bind_value]
  change ((p >>= fun a => blanks >>= fun _ => pure a) (text.dropWhile isBlank)).value? = _
  rw [bind_value]
  cases (p (text.dropWhile isBlank)).value? with
  | none => rfl
  | some entry => rfl

theorem Reads.padded (h : p.Reads (text.dropWhile isBlank) a rest) :
    (padded p).Reads text a (rest.dropWhile isBlank) := by
  rw [Reads, padded_value, h]
  rfl

theorem Fails.padded (h : p.Fails (text.dropWhile isBlank)) : (padded p).Fails text := by
  rw [Fails, padded_value, h]
  rfl

/-- A padded scanner does not care for the blanks in front. -/
theorem padded_dropWhile (p : Scanner α) (text : List Char) :
    ((padded p) (text.dropWhile isBlank)).value? = ((padded p) text).value? := by
  rw [padded_value, padded_value, (stops_dropWhile isBlank text).dropWhile]

theorem Reads.lead {front : List Char} (hfront : Blanks front)
    (h : (Scanner.padded p).Reads text a rest) :
    (Scanner.padded p).Reads (front ++ text) a rest := by
  rw [Reads, ← padded_dropWhile, hfront.dropWhile, padded_dropWhile]
  exact h

theorem Reads.strip (h : (Scanner.padded p).Reads text a rest) :
    (Scanner.padded p).Reads (text.dropWhile isBlank) a rest :=
  (padded_dropWhile p text).trans h

theorem Reads.optional (h : p.Reads text a rest) : (optional p).Reads text (some a) rest := by
  unfold Reads at h ⊢
  unfold Scanner.optional
  rcases hp : p text with ⟨value?, failed?⟩
  rw [hp] at h
  simp only at h
  subst h
  rfl

theorem Fails.optional (h : p.Fails text) : (optional p).Reads text none text := by
  unfold Fails at h
  unfold Reads Scanner.optional
  rcases hp : p text with ⟨value?, failed?⟩
  rw [hp] at h
  simp only at h
  subst h
  rfl

/-- Items up to the place where the next one fails. Every item takes a character at least. -/
inductive ReadsAll (p : Scanner α) : List Char → List α → List Char → Prop
  | stop {text : List Char} (hfails : p.Fails text) : ReadsAll p text [] text
  | next {text mid rest : List Char} {a : α} {items : List α} (hreads : p.Reads text a mid)
      (hshorter : mid.length < text.length) (hmore : ReadsAll p mid items rest) :
      ReadsAll p text (a :: items) rest

theorem ReadsAll.manyUpTo {items : List α} (h : p.ReadsAll text items rest) {fuel : Nat}
    (hfuel : text.length < fuel) : (manyUpTo p fuel).Reads text items rest := by
  induction h generalizing fuel with
  | @stop text hfails =>
      obtain ⟨fuel, rfl⟩ := Nat.exists_eq_succ_of_ne_zero (Nat.ne_zero_of_lt hfuel)
      unfold Fails at hfails
      rw [Reads, Scanner.manyUpTo]
      rcases hp : p text with ⟨value?, failed?⟩
      rw [hp] at hfails
      simp only at hfails
      subst hfails
      rfl
  | @next text mid rest a items hreads hshorter _ ih =>
      obtain ⟨fuel, rfl⟩ := Nat.exists_eq_succ_of_ne_zero (Nat.ne_zero_of_lt hfuel)
      have hnext := @ih fuel (by omega)
      unfold Reads at hreads hnext
      rw [Reads, Scanner.manyUpTo]
      rcases hp : p text with ⟨value?, failed?⟩
      rw [hp] at hreads
      simp only at hreads
      subst hreads
      simp only [hnext, Option.map_some]

theorem ReadsAll.many {items : List α} (h : p.ReadsAll text items rest) :
    (many p).Reads text items rest :=
  h.manyUpTo (Nat.lt_succ_self _)

end Scanner

end ParityGames.Text
