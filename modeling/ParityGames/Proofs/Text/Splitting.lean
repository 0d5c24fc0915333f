import ParityGames.Proofs.Text.Scanning

/-! # What scanners take off a text

The converse of what scanners read: a scanner that came to a value took a front off the text, and
the value tells which. A scanner that stays inside of a text is settled there: it reads the same
value if more text follows.
-/

namespace ParityGames.Text

/-! ## Fronts of texts -/

section Fronts

variable {accept : Char → Bool} {text : List Char} {c : Char}

theorem Blanks.append {front : List Char} (hfront : Blanks front) (htext : Blanks text) :
    Blanks (front ++ text) := fun c hc => (List.mem_append.1 hc).elim (hfront c) (htext c)

theorem Blanks.not_mem (h : Blanks text) (hc : isBlank c = false) : c ∉ text := by
  intro hmem
  rw [h c hmem] at hc
  cases hc

/-- The blanks in front of a text, and the rest of it. -/
theorem exists_blanks (text : List Char) :
    ∃ lead, Blanks lead ∧ text = lead ++ text.dropWhile isBlank :=
  ⟨text.takeWhile isBlank, fun c hc => List.all_eq_true.1 List.all_takeWhile c hc,
    List.takeWhile_append_dropWhile.symm⟩

theorem mem_dropWhile (hc : accept c = false) (hmem : c ∈ text) : c ∈ text.dropWhile accept := by
  rw [← @List.takeWhile_append_dropWhile _ accept text, List.mem_append] at hmem
  refine hmem.resolve_left fun htake => ?_
  rw [List.all_eq_true.1 List.all_takeWhile c htake] at hc
  cases hc

/-- A run that ends inside of a text is the same if more text follows. -/
theorem dropWhile_append_of_mem (hc : accept c = false) (hmem : c ∈ text) (more : List Char) :
    (text ++ more).dropWhile accept = text.dropWhile accept ++ more := by
  rw [List.dropWhile_append, if_neg]
  rw [List.isEmpty_iff]
  exact List.ne_nil_of_mem (mem_dropWhile hc hmem)

theorem takeWhile_append_of_mem (hc : accept c = false) (hmem : c ∈ text) (more : List Char) :
    (text ++ more).takeWhile accept = text.takeWhile accept := by
  have hsplit : (text ++ more).takeWhile accept ++ (text ++ more).dropWhile accept =
      text.takeWhile accept ++ (text.dropWhile accept ++ more) := by
    rw [List.takeWhile_append_dropWhile, ← List.append_assoc, List.takeWhile_append_dropWhile]
  rw [dropWhile_append_of_mem hc hmem] at hsplit
  exact List.append_cancel_right hsplit

end Fronts

/-! ## Digits -/

theorem digitChar_of_isDigit {c : Char} (hc : c.isDigit = true) :
    (c.toNat - '0'.toNat) < 10 ∧ (c.toNat - '0'.toNat).digitChar = c := by
  simp only [Char.isDigit, Bool.and_eq_true, decide_eq_true_eq] at hc
  have hlow : 48 ≤ c.toNat := UInt32.le_iff_toNat_le.1 hc.1
  have hhigh : c.toNat ≤ 57 := UInt32.le_iff_toNat_le.1 hc.2
  have hzero : '0'.toNat = 48 := rfl
  refine ⟨by omega, Char.toNat_inj.1 ?_⟩
  rw [Nat.toNat_digitChar_of_lt_ten (by omega)]
  omega

theorem digits_foldl {n : Nat} (hn : 0 < n) {digits : List Char}
    (hdigits : ∀ d ∈ digits, d.isDigit = true) :
    Nat.toDigits 10 (digits.foldl (fun n c => 10 * n + (c.toNat - '0'.toNat)) n) =
      Nat.toDigits 10 n ++ digits := by
  induction digits generalizing n with
  | nil => rw [List.foldl_nil, List.append_nil]
  | cons d rest ih =>
      obtain ⟨hlt, hchar⟩ := digitChar_of_isDigit (hdigits d List.mem_cons_self)
      have hnext : Nat.toDigits 10 (10 * n + (d.toNat - '0'.toNat)) = Nat.toDigits 10 n ++ [d] := by
        rw [← Nat.toDigits_append_toDigits (by decide) hn hlt, Nat.toDigits_of_lt_base hlt, hchar]
      rw [List.foldl_cons, ih (by omega) fun e he => hdigits e (List.mem_cons_of_mem d he), hnext,
        List.append_assoc, List.singleton_append]

/-- Digits that do not start with a zero are the digits of their value. -/
theorem digits_decimalValue {c : Char} (hc : c ≠ '0') {digits : List Char}
    (hdigits : ∀ d ∈ c :: digits, d.isDigit = true) :
    Nat.toDigits 10 (decimalValue (c :: digits)) = c :: digits := by
  obtain ⟨hlt, hchar⟩ := digitChar_of_isDigit (hdigits c List.mem_cons_self)
  have hpos : 0 < c.toNat - '0'.toNat := by
    apply Nat.pos_of_ne_zero
    intro hzero
    rw [hzero] at hchar
    exact hc hchar.symm
  have hvalue : decimalValue (c :: digits) =
      digits.foldl (fun n c => 10 * n + (c.toNat - '0'.toNat)) (c.toNat - '0'.toNat) := by
    rw [decimalValue, List.foldl_cons, Nat.mul_zero, Nat.zero_add]
  rw [hvalue, digits_foldl hpos fun d hd => hdigits d (List.mem_cons_of_mem c hd),
    Nat.toDigits_of_lt_base hlt, hchar, List.singleton_append]

namespace Scanner

variable {α β : Type} {p : Scanner α} {f : α → Scanner β} {text mid rest more : List Char} {a : α}
  {b : β} {c : Char}

/-! ## Values and the texts they come from -/

theorem Reads.of_bind (h : (p >>= f).Reads text b rest) :
    ∃ a mid, p.Reads text a mid ∧ (f a).Reads mid b rest := by
  rw [Reads, bind_value] at h
  obtain ⟨⟨a, mid⟩, hp, hf⟩ := Option.bind_eq_some_iff.1 h
  exact ⟨a, mid, hp, hf⟩

theorem Fails.of_bind (h : (p >>= f).Fails text) :
    p.Fails text ∨ ∃ a mid, p.Reads text a mid ∧ (f a).Fails mid := by
  rw [Fails, bind_value] at h
  cases hp : (p text).value? with
  | none => exact Or.inl hp
  | some entry =>
      rw [hp] at h
      exact Or.inr ⟨entry.1, entry.2, hp, h⟩

theorem Reads.fails_bind (hp : p.Reads text a mid) (hf : (f a).Fails mid) :
    (p >>= f).Fails text := by
  rw [Fails, bind_value, hp]
  exact hf

theorem Reads.of_pure {a' : α} (h : (pure a : Scanner α).Reads text a' rest) :
    a' = a ∧ rest = text := by
  cases h
  exact ⟨rfl, rfl⟩

theorem not_fails_pure : ¬(pure a : Scanner α).Fails text := fun h => nomatch h

theorem Reads.of_padded (h : (Scanner.padded p).Reads text a rest) :
    ∃ more, p.Reads (text.dropWhile isBlank) a more ∧ rest = more.dropWhile isBlank := by
  rw [Reads, padded_value] at h
  obtain ⟨⟨a', more⟩, hp, hentry⟩ := Option.map_eq_some_iff.1 h
  cases hentry
  exact ⟨more, hp, rfl⟩

theorem Fails.of_padded (h : (Scanner.padded p).Fails text) : p.Fails (text.dropWhile isBlank) := by
  rw [Fails, padded_value, Option.map_eq_none_iff] at h
  exact h

/-- A padded scanner takes blanks on both sides. -/
theorem Reads.of_padded_blanks (h : (Scanner.padded p).Reads text a rest) :
    ∃ lead core last, Blanks lead ∧ Blanks last ∧ text = lead ++ core ∧
      p.Reads core a (last ++ rest) := by
  obtain ⟨after, hp, hrest⟩ := h.of_padded
  obtain ⟨lead, hlead, htext⟩ := exists_blanks text
  obtain ⟨last, hlast, hafter⟩ := exists_blanks after
  rw [← hrest] at hafter
  exact ⟨lead, _, last, hlead, hlast, htext, hafter ▸ hp⟩

theorem Reads.of_char (h : (char c).Reads text () rest) : text = c :: rest := by
  cases text with
  | nil => cases h
  | cons d tail =>
      simp only [Reads, char] at h
      split at h
      · rename_i hd
        cases h
        rw [hd]
      · cases h

theorem Reads.of_keyword {word : List Char} (h : (keyword word).Reads text () rest) :
    text = word ++ rest := by
  induction word generalizing text with
  | nil =>
      cases h
      rfl
  | cons c word ih =>
      obtain ⟨_, mid, hfirst, hword⟩ := h.of_bind
      rw [Reads.of_char hfirst, ih hword]
      rfl

theorem Reads.of_skip {accept : Char → Bool} (h : (skip accept).Reads text () rest) :
    rest = text.dropWhile accept := by
  cases h
  rfl

theorem Reads.of_span {accept : Char → Bool} {front : List Char}
    (h : (span accept).Reads text front rest) :
    front = text.takeWhile accept ∧ rest = text.dropWhile accept := by
  cases h
  exact ⟨rfl, rfl⟩

theorem Reads.of_integer {bound n : Nat} (hbound : 0 < bound)
    (h : (integer bound).Reads text n rest) : n < bound ∧ text = Nat.toDigits 10 n ++ rest := by
  cases text with
  | nil => cases h
  | cons c tail =>
      simp only [Reads, integer] at h
      split at h
      · rename_i hc
        cases h
        rw [hc, Nat.toDigits_zero]
        exact ⟨hbound, rfl⟩
      · rename_i hc
        split at h
        · rename_i hdigit
          split at h
          · rename_i hlt
            cases h
            refine ⟨hlt, ?_⟩
            rw [digits_decimalValue hc, List.cons_append, List.takeWhile_append_dropWhile]
            intro d hd
            rcases List.mem_cons.1 hd with rfl | hd
            · exact hdigit
            · exact List.all_eq_true.1 List.all_takeWhile d hd
          · cases h
        · cases h

theorem Reads.of_optional {a? : Option α} (h : (Scanner.optional p).Reads text a? rest) :
    (∃ a, a? = some a ∧ p.Reads text a rest) ∨ a? = none ∧ p.Fails text ∧ rest = text := by
  unfold Reads Scanner.optional at h
  rcases htext : p text with ⟨value?, failed?⟩
  rw [htext] at h
  cases value? with
  | none =>
      cases h
      exact Or.inr ⟨rfl, congrArg Scan.value? htext, rfl⟩
  | some entry =>
      cases h
      exact Or.inl ⟨_, rfl, congrArg Scan.value? htext⟩

/-- A repetition whose items take a character at least ends where the next item fails. -/
theorem ReadsAll.of_manyUpTo (hp : ∀ text a rest, p.Reads text a rest → rest.length < text.length)
    {items : List α} {fuel : Nat} (hfuel : text.length < fuel)
    (h : (Scanner.manyUpTo p fuel).Reads text items rest) : p.ReadsAll text items rest := by
  induction fuel generalizing text items with
  | zero => omega
  | succ fuel ih =>
      unfold Reads at h
      rw [Scanner.manyUpTo] at h
      rcases htext : p text with ⟨value?, failed?⟩
      rw [htext] at h
      cases value? with
      | none =>
          cases h
          exact .stop (congrArg Scan.value? htext)
      | some entry =>
          obtain ⟨a, mid⟩ := entry
          have hreads : p.Reads text a mid := congrArg Scan.value? htext
          have hshorter := hp text a mid hreads
          simp only [Option.map_eq_some_iff] at h
          obtain ⟨⟨items', rest'⟩, hmore, hentry⟩ := h
          cases hentry
          exact .next hreads hshorter (ih (by omega) hmore)

theorem Reads.of_many (hp : ∀ text a rest, p.Reads text a rest → rest.length < text.length)
    {items : List α} (h : (Scanner.many p).Reads text items rest) : p.ReadsAll text items rest :=
  .of_manyUpTo hp (Nat.lt_succ_self _) h

/-! ## More text behind -/

/-- The scanner stays inside of the text: what follows is left over. -/
def Settled (more : List Char) (p : Scanner α) (text : List Char) : Prop :=
  (p (text ++ more)).value? = (p text).value?.map fun entry => (entry.1, entry.2 ++ more)

theorem Settled.reads (h : p.Settled more text) (hp : p.Reads text a rest) :
    p.Reads (text ++ more) a (rest ++ more) := by
  unfold Settled at h
  rw [Reads, h, hp]
  rfl

theorem Settled.fails (h : p.Settled more text) (hp : p.Fails text) : p.Fails (text ++ more) := by
  unfold Settled at h
  rw [Fails, h, hp]
  rfl

theorem Settled.bind (hp : p.Settled more text)
    (hf : ∀ a mid, p.Reads text a mid → (f a).Settled more mid) : (p >>= f).Settled more text := by
  unfold Settled at hp ⊢
  rw [bind_value, bind_value, hp]
  cases hread : (p text).value? with
  | none => rfl
  | some entry => exact hf entry.1 entry.2 hread

theorem settled_char (hne : text ≠ []) : (char c).Settled more text := by
  cases text with
  | nil => exact absurd rfl hne
  | cons d tail =>
      by_cases hd : d = c
      · simp [Settled, char, hd]
      · simp [Settled, char, hd, failAt]

/-- A keyword is settled where some character is not one of its own. -/
theorem settled_keyword {word : List Char} (hc : c ∉ word) (hmem : c ∈ text) :
    (keyword word).Settled more text := by
  induction word generalizing text with
  | nil => rfl
  | cons d word ih =>
      rw [List.mem_cons, not_or] at hc
      refine Settled.bind (settled_char (List.ne_nil_of_mem hmem)) fun _ mid hd => ih hc.2 ?_
      rw [Reads.of_char hd, List.mem_cons] at hmem
      exact hmem.resolve_left hc.1

theorem settled_integer {bound : Nat} (hc : c.isDigit = false) (hmem : c ∈ text) :
    (integer bound).Settled more text := by
  cases text with
  | nil => cases hmem
  | cons d tail =>
      unfold Settled
      rw [List.cons_append, integer, integer]
      split
      · rfl
      · split
        · rename_i hd
          have htail : c ∈ tail := (List.mem_cons.1 hmem).resolve_left fun h => by
            rw [h, hd] at hc
            cases hc
          simp only [takeWhile_append_of_mem hc htail, dropWhile_append_of_mem hc htail]
          split <;> rfl
        · rfl

/-- Padding is settled where neither the blanks in front nor those behind reach the end. -/
theorem Settled.padded (hp : p.Settled more (text.dropWhile isBlank)) (hc : isBlank c = false)
    (hmem : c ∈ text) (hrest : ∀ a rest, p.Reads (text.dropWhile isBlank) a rest → c ∈ rest) :
    (padded p).Settled more text := by
  unfold Settled at hp ⊢
  rw [padded_value, padded_value, dropWhile_append_of_mem hc hmem, hp]
  cases hread : (p (text.dropWhile isBlank)).value? with
  | none => rfl
  | some entry =>
      simp only [Option.map_some]
      rw [dropWhile_append_of_mem hc (hrest entry.1 entry.2 hread)]

/-- A repetition reads the same items if each of them is settled, and so is the one that fails. -/
theorem ReadsAll.append {inside : List Char → Prop} (hp : ∀ text, inside text → p.Settled more text)
    (hkeeps : ∀ text a rest, inside text → p.Reads text a rest → inside rest) {items : List α}
    (h : p.ReadsAll text items rest) (htext : inside text) :
    p.ReadsAll (text ++ more) items (rest ++ more) := by
  induction h with
  | stop hfails => exact .stop ((hp _ htext).fails hfails)
  | @next text mid rest a items hreads hshorter _ ih =>
      refine .next ((hp _ htext).reads hreads) ?_ (ih (hkeeps _ _ _ htext hreads))
      simp only [List.length_append]
      omega

end Scanner

end ParityGames.Text
