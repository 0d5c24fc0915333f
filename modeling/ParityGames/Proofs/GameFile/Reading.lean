import ParityGames.GameFile.Reader
import ParityGames.Proofs.GameFile.Written

/-! # Game files are read back

Reading a clearly written file gives the file. Every part is read up to the blanks behind it, so the
text that is left to the next part never starts with a blank, except where an optional part is
missing.
-/

namespace ParityGames

namespace GameFile

open Text Scanner

variable {n : Nat} {numbers : List Nat} {text rest : List Char}

/-! ## Numbers and signs -/

theorem reads_number {lead : List Char} (hlead : Blanks lead) (hn : n < numberBound)
    (hrest : Stops Char.isDigit rest) :
    number.Reads (lead ++ (Nat.toDigits 10 n ++ rest)) n (rest.dropWhile isBlank) := by
  refine Reads.padded ?_
  rw [hlead.dropWhile_of_stops (stops_digits n rest)]
  exact reads_integer hn hrest

theorem reads_sign {lead : List Char} {c : Char} (hlead : Blanks lead) (hc : isBlank c = false) :
    (padded (char c)).Reads (lead ++ c :: rest) () (rest.dropWhile isBlank) := by
  refine Reads.padded ?_
  rw [hlead.dropWhile_of_stops (.cons hc)]
  exact reads_char c rest

theorem sign_fails {c : Char} (h : (text.dropWhile isBlank).head? ≠ some c) :
    (padded (char c)).Fails text :=
  (char_fails h).padded

/-- Blanks that are not missing end a number, and so does any sign. -/
theorem stops_isDigit_gap {gap : List Char} (hgap : Blanks gap) (hne : gap ≠ []) :
    Stops Char.isDigit (gap ++ rest) := by
  obtain ⟨c, more, rfl⟩ := List.exists_cons_of_ne_nil hne
  exact .cons (isDigit_of_isBlank (hgap c List.mem_cons_self))

theorem stops_isDigit_blanks {blanks : List Char} (hblanks : Blanks blanks)
    (hrest : Stops Char.isDigit rest) : Stops Char.isDigit (blanks ++ rest) := by
  by_cases hne : blanks = []
  · rw [hne]
    exact hrest
  · exact stops_isDigit_gap hblanks hne

/-! ## Headers -/

theorem reads_header {word : String} (hword : Stops isBlank word.toList) (hne : word.toList ≠ [])
    (hwrites : WritesHeader word (some n) text) (hn : n < numberBound) :
    (header word).Reads (text ++ rest) n (rest.dropWhile isBlank) := by
  cases hwrites with
  | @present n before middle after last hbefore hmiddle hafter hlast =>
      obtain ⟨c, letters, hletters⟩ := List.exists_cons_of_ne_nil hne
      have hfront : ∀ more, Stops isBlank (word.toList ++ more) := fun more => by
        rw [hletters] at hword ⊢
        exact .cons (hword c rfl)
      have hkeyword : (padded (keyword word.toList)).Reads
          (before ++ (word.toList ++ (middle ++ (Nat.toDigits 10 n ++
            (after ++ ';' :: (last ++ rest)))))) () (Nat.toDigits 10 n ++
            (after ++ ';' :: (last ++ rest))) := by
        have hread := (reads_keyword word.toList (middle ++ (Nat.toDigits 10 n ++
          (after ++ ';' :: (last ++ rest)))))
        rw [← hbefore.dropWhile_of_stops (hfront _)] at hread
        have hpadded := hread.padded
        rwa [hmiddle.dropWhile_of_stops (stops_digits _ _)] at hpadded
      have hsemicolon : Stops Char.isDigit (after ++ ';' :: (last ++ rest)) :=
        stops_isDigit_blanks hafter (.cons (by decide))
      have hnumber := reads_number .nil hn hsemicolon
      rw [hafter.dropWhile_of_stops (.cons (by decide))] at hnumber
      have hlast' : (padded (char ';')).Reads (';' :: (last ++ rest)) ()
          (rest.dropWhile isBlank) := by
        have hread := @reads_sign (last ++ rest) [] ';' .nil (by decide)
        rwa [hlast.dropWhile] at hread
      simp only [List.append_assoc, List.cons_append]
      exact hkeyword.bind (hnumber.bind (hlast'.bind (reads_pure n _)))

theorem header_fails {word : String} {c : Char} {letters : List Char}
    (hword : word.toList = c :: letters) (h : (text.dropWhile isBlank).head? ≠ some c) :
    (header word).Fails text := by
  have hkeyword : (keyword word.toList).Fails (text.dropWhile isBlank) := by
    rw [hword]
    exact keyword_fails h
  exact hkeyword.padded.bind

/-! ## Rows -/

theorem reads_player (p : Player) (rest : List Char) :
    player.Reads (Nat.toDigits 10 p.number ++ rest) p rest := by
  cases p <;> rfl

theorem reads_numbers {lead : List Char} (hlead : Blanks lead) (hwrites : WritesNumbers numbers text)
    (hbound : ∀ n ∈ numbers, n < numberBound) (hdigit : Stops Char.isDigit rest)
    (hcomma : (rest.dropWhile isBlank).head? ≠ some ',') :
    (separated number comma).Reads (lead ++ (text ++ rest)) numbers (rest.dropWhile isBlank) := by
  suffices hmany : ∃ first more mid, numbers = first :: more ∧
      number.Reads (text ++ rest) first mid ∧ mid.length ≤ text.length + rest.length ∧
      ReadsAll (do comma; number) mid more (rest.dropWhile isBlank) by
    obtain ⟨first, more, mid, rfl, hfirst, -, hmore⟩ := hmany
    exact (hfirst.lead hlead).bind (hmore.many.bind (reads_pure _ _))
  induction hwrites with
  | last n =>
      refine ⟨n, [], _, rfl, reads_number .nil (hbound n (by simp)) hdigit, ?_, .stop ?_⟩
      · have := length_dropWhile_le isBlank rest
        omega
      · refine Fails.bind (sign_fails ?_)
        rwa [(stops_dropWhile isBlank rest).dropWhile]
  | @more n numbers before after text hbefore hafter _ ih =>
      obtain ⟨first, more, mid, rfl, hfirst, hlength, hmore⟩ :=
        ih fun n hn => hbound n (List.mem_cons_of_mem _ hn)
      have hnumber : number.Reads
          (Nat.toDigits 10 n ++ (before ++ ',' :: (after ++ (text ++ rest)))) n
          (',' :: (after ++ (text ++ rest))) := by
        have hstops : Stops Char.isDigit (before ++ ',' :: (after ++ (text ++ rest))) :=
          stops_isDigit_blanks hbefore (.cons (by decide))
        have hread := reads_number .nil (hbound n List.mem_cons_self) hstops
        rwa [hbefore.dropWhile_of_stops (.cons (by decide))] at hread
      have hitem : Scanner.Reads (do comma; number) (',' :: (after ++ (text ++ rest))) first mid :=
        Reads.bind (@reads_sign _ [] ',' .nil (by decide)) (hfirst.lead hafter).strip
      refine ⟨n, first :: more, _, rfl, ?_, ?_, .next hitem ?_ hmore⟩
      · simpa only [List.append_assoc, List.cons_append] using hnumber
      · simp only [List.length_append, List.length_cons]
        omega
      · simp only [List.length_append, List.length_cons]
        omega

/-- A name that is there is read, and one that is not is given up. The comment is skipped then, with
or without the blanks in front of it. -/
theorem reads_name {name? : Option String} {name comment : List Char}
    (hname : WritesName name? name) (hcomment : Manner.clear.comment name? comment) :
    ∃ mid, (optional (padded quotedName)).Reads ((name ++ (comment ++ ';' :: rest)).dropWhile isBlank)
        name? mid ∧ mid.dropWhile (· ≠ ';') = ';' :: rest := by
  obtain ⟨hsemicolon, hclear⟩ := hcomment
  have hskip : ((comment ++ ';' :: rest).dropWhile isBlank).dropWhile (· ≠ ';') = ';' :: rest := by
    rw [dropWhile_dropWhile, List.dropWhile_append_of_pos, List.dropWhile_cons_of_neg] <;> simp
    · rintro c hc rfl
      exact hsemicolon hc
    · rintro c hc rfl
      exact absurd hc (by decide)
  cases hname with
  | absent =>
      refine ⟨_, Fails.optional (Fails.padded (Fails.bind (char_fails ?_))), hskip⟩
      rw [(stops_dropWhile isBlank _).dropWhile, List.nil_append,
        dropWhile_append_cons (by decide)]
      intro hquote
      have hstops := @Stops.append _ (';' :: rest) _ (hclear rfl) (.cons (by decide))
      exact absurd (hstops _ hquote) (by decide)
  | @present name before hbefore hquote =>
      have hname : quotedName.Reads ('"' :: (name.toList ++ '"' :: (comment ++ ';' :: rest))) name
          (comment ++ ';' :: rest) := by
        have hletters : ∀ c ∈ name.toList, decide (c ≠ '"') = true := by
          intro c hc
          rw [decide_eq_true_eq]
          rintro rfl
          exact hquote hc
        have hspan : (Scanner.span (· ≠ '"')).Reads
            (name.toList ++ '"' :: (comment ++ ';' :: rest)) name.toList
            ('"' :: (comment ++ ';' :: rest)) :=
          reads_span hletters (.cons (by decide))
        have hread : quotedName.Reads ('"' :: (name.toList ++ '"' :: (comment ++ ';' :: rest)))
            (String.ofList name.toList) (comment ++ ';' :: rest) :=
          (reads_char '"' _).bind (hspan.bind ((reads_char '"' _).bind (reads_pure _ _)))
        rwa [String.ofList_toList] at hread
      refine ⟨_, Reads.optional (Reads.padded ?_), hskip⟩
      simp only [List.append_assoc, List.cons_append, List.nil_append]
      rw [(stops_dropWhile isBlank _).dropWhile, hbefore.dropWhile_of_stops (.cons (by decide))]
      exact hname

theorem stops_name {name? : Option String} {name comment : List Char}
    (hname : WritesName name? name) (hcomment : Manner.clear.comment name? comment) :
    Stops Char.isDigit (name ++ (comment ++ ';' :: rest)) ∧
      ((name ++ (comment ++ ';' :: rest)).dropWhile isBlank).head? ≠ some ',' := by
  cases hname with
  | @present name before hbefore hquote =>
      simp only [List.append_assoc, List.cons_append]
      rw [hbefore.dropWhile_of_stops (.cons (by decide))]
      exact ⟨stops_isDigit_blanks hbefore (.cons (by decide)), by simp⟩
  | absent =>
      have hstops := @Stops.append _ (';' :: rest) _ (hcomment.2 rfl) (.cons (by decide))
      rw [List.nil_append, dropWhile_append_cons (by decide)]
      refine ⟨?_, fun hcomma => absurd (hstops _ hcomma) (by decide)⟩
      rw [← List.takeWhile_append_dropWhile (p := isBlank) (l := comment), List.append_assoc]
      refine stops_isDigit_blanks (fun c hc => ?_) (hstops.mono fun c hc => ?_)
      · exact List.all_eq_true.1 List.all_takeWhile c hc
      · simp only [Bool.or_eq_false_iff] at hc
        exact hc.1.1

theorem reads_row {row : GameRow} (hrow : row.Writable) (hwrites : WritesRow .clear row text) :
    GameFile.row.Reads (text ++ rest) row (rest.dropWhile isBlank) := by
  cases hwrites with
  | @mk lead gap gap' before successors name comment last hlead hgap hgap' hbefore hsuccessors
      hname hcomment hlast =>
      obtain ⟨mid, hreadsName, hskip⟩ := @reads_name (last ++ rest) _ _ _ hname hcomment
      obtain ⟨hdigit, hcomma⟩ := @stops_name (last ++ rest) _ _ _ hname hcomment
      have hnumbers :=
        reads_numbers hbefore hsuccessors hrow.successors_lt hdigit hcomma
      have hplayer := reads_player row.player (before ++ (successors ++ (name ++ (comment ++
        ';' :: (last ++ rest)))))
      have hpriority := reads_number .nil hrow.priority_lt
        (@stops_isDigit_gap (Nat.toDigits 10 row.player.number ++ (before ++
          (successors ++ (name ++ (comment ++ ';' :: (last ++ rest)))))) _ hgap'.2 hgap'.1)
      rw [hgap'.2.dropWhile_of_stops (stops_digits _ _)] at hpriority
      have hid := reads_number hlead hrow.id_lt (@stops_isDigit_gap (Nat.toDigits 10 row.priority ++
        (gap' ++ (Nat.toDigits 10 row.player.number ++ (before ++ (successors ++ (name ++ (comment ++
          ';' :: (last ++ rest)))))))) _ hgap.2 hgap.1)
      rw [hgap.2.dropWhile_of_stops (stops_digits _ _)] at hid
      have hlast' : semicolon.Reads (';' :: (last ++ rest)) () (rest.dropWhile isBlank) := by
        have hread := @reads_sign (last ++ rest) [] ';' .nil (by decide)
        rwa [hlast.dropWhile] at hread
      have hcomment : (skip (· ≠ ';')).Reads mid () (';' :: (last ++ rest)) :=
        hskip ▸ reads_skip (· ≠ ';') mid
      have hbody : rowBody.Reads (lead ++ (Nat.toDigits 10 row.id ++ (gap ++
          (Nat.toDigits 10 row.priority ++ (gap' ++ (Nat.toDigits 10 row.player.number ++ (before ++
            (successors ++ (name ++ (comment ++ ';' :: (last ++ rest))))))))))) row
          (';' :: (last ++ rest)) :=
        hid.bind (hpriority.bind (hplayer.bind (hnumbers.bind (hreadsName.bind (hcomment.bind
          (reads_pure row _))))))
      simp only [List.append_assoc, List.cons_append]
      exact hbody.bind (hlast'.bind (reads_pure row _))

/-- A row takes more than the blanks in front of it. -/
theorem length_lt_of_writesRow {m : Manner} {row : GameRow} (hwrites : WritesRow m row text) :
    (rest.dropWhile isBlank).length < ((text ++ rest).dropWhile isBlank).length := by
  cases hwrites with
  | @mk lead gap gap' before successors name comment last hlead =>
      simp only [List.append_assoc, List.cons_append]
      rw [hlead.dropWhile_of_stops (stops_digits _ _)]
      have hle := length_dropWhile_le isBlank rest
      simp only [List.length_append, List.length_cons]
      omega

theorem row_dropWhile (text : List Char) :
    (GameFile.row (text.dropWhile isBlank)).value? = (GameFile.row text).value? := by
  unfold GameFile.row rowBody
  rw [bind_value, bind_value, bind_value, bind_value, number, padded_dropWhile]

/-! ## Files -/

def UpToBlanks (text mid : List Char) : Prop := mid = text ∨ mid = text.dropWhile isBlank

theorem UpToBlanks.dropWhile {mid : List Char} (h : UpToBlanks text mid) :
    mid.dropWhile isBlank = text.dropWhile isBlank := by
  rcases h with rfl | rfl
  · rfl
  · exact (stops_dropWhile isBlank text).dropWhile

theorem readsAll_rows {rows : List GameRow} (hrows : ∀ row ∈ rows, row.Writable)
    (hwrites : WritesRows .clear rows text) {mid : List Char} (hmid : UpToBlanks text mid) :
    ReadsAll GameFile.row mid rows [] := by
  induction hwrites generalizing mid with
  | nil =>
      have hnil : mid = [] := hmid.elim id id
      rw [hnil]
      exact .stop rfl
  | @cons row rows text more hrow _ ih =>
      have hread : GameFile.row.Reads (text ++ more) row (more.dropWhile isBlank) :=
        reads_row (hrows row List.mem_cons_self) hrow
      rw [Reads, ← row_dropWhile, ← hmid.dropWhile, row_dropWhile] at hread
      refine .next hread ?_ (ih (fun row hrow => hrows row (List.mem_cons_of_mem _ hrow)) (.inr rfl))
      have hlt := @length_lt_of_writesRow _ more _ _ hrow
      rw [← hmid.dropWhile] at hlt
      exact Nat.lt_of_lt_of_le hlt (length_dropWhile_le isBlank mid)

theorem header_dropWhile (word : String) (text : List Char) :
    (header word (text.dropWhile isBlank)).value? = (header word text).value? := by
  unfold header
  rw [bind_value, bind_value, padded_dropWhile]

theorem reads_optional_header {word : String} {c : Char} {letters : List Char} {n? : Option Nat}
    (hword : word.toList = c :: letters) (hc : isBlank c = false)
    (hwrites : WritesHeader word n? text) (hbound : ∀ n, n? = some n → n < numberBound)
    (hother : (rest.dropWhile isBlank).head? ≠ some c) {mid : List Char}
    (hmid : UpToBlanks (text ++ rest) mid) :
    ∃ mid', (optional (header word)).Reads mid n? mid' ∧ UpToBlanks rest mid' := by
  cases n? with
  | none =>
      cases hwrites
      refine ⟨mid, Fails.optional (header_fails hword ?_), hmid⟩
      rw [hmid.dropWhile]
      exact hother
  | some n =>
      refine ⟨_, Reads.optional ?_, .inr rfl⟩
      have hread : (header word).Reads (text ++ rest) n (rest.dropWhile isBlank) := by
        refine reads_header ?_ ?_ hwrites (hbound n rfl)
        · rw [hword]
          exact .cons hc
        · rw [hword]
          exact List.cons_ne_nil c letters
      rw [Reads, ← header_dropWhile, ← hmid.dropWhile, header_dropWhile] at hread
      exact hread

theorem isDigit_of_writesRows {m : Manner} {rows : List GameRow} (hwrites : WritesRows m rows text)
    {c : Char} (hc : (text.dropWhile isBlank).head? = some c) : c.isDigit = true := by
  cases hwrites with
  | nil => cases hc
  | cons hrow _ =>
      cases hrow with
      | @mk lead gap gap' before successors name comment last hlead =>
          simp only [List.append_assoc, List.cons_append] at hc
          rw [hlead.dropWhile_of_stops (stops_digits _ _)] at hc
          obtain ⟨d, digits, hdigits⟩ := List.exists_cons_of_ne_nil (@Nat.toDigits_ne_nil _ 10)
          rw [hdigits] at hc
          obtain rfl := Option.some.inj hc
          exact isDigit_of_mem_digits (by rw [hdigits]; exact List.mem_cons_self)

theorem head_of_writesHeader {word : String} {c : Char} {letters : List Char} {n? : Option Nat}
    (hword : word.toList = c :: letters) (hc : isBlank c = false)
    (hwrites : WritesHeader word n? text) {d : Char}
    (hd : ((text ++ rest).dropWhile isBlank).head? = some d) :
    d = c ∨ (rest.dropWhile isBlank).head? = some d := by
  cases hwrites with
  | absent => exact .inr hd
  | @present n before middle after last hbefore =>
      simp only [List.append_assoc, List.cons_append, hword] at hd
      rw [hbefore.dropWhile_of_stops (.cons hc)] at hd
      exact .inl (Option.some.inj hd).symm

theorem reads_file {f : GameFile} (hf : f.Writable) (hwrites : WritesFile .clear f text) :
    file.Reads text f [] := by
  cases hwrites with
  | @mk maxId start rows hmaxId hstart hrows =>
      have hstartOther : (rows.dropWhile isBlank).head? ≠ some 's' := fun hs =>
        absurd (isDigit_of_writesRows hrows hs) (by decide)
      have hmaxIdOther : ((start ++ rows).dropWhile isBlank).head? ≠ some 'p' := by
        intro hp
        rcases head_of_writesHeader rfl (by decide) hstart hp with heq | hp
        · exact absurd heq (by decide)
        · exact absurd (isDigit_of_writesRows hrows hp) (by decide)
      rw [List.append_assoc]
      obtain ⟨first, hreadsMaxId, hfirst⟩ :=
        reads_optional_header rfl (by decide) hmaxId hf.maxId_lt hmaxIdOther (.inl rfl)
      obtain ⟨second, hreadsStart, hsecond⟩ :=
        reads_optional_header rfl (by decide) hstart hf.start_lt hstartOther hfirst
      have hreadsRows := (readsAll_rows hf.row hrows hsecond).many
      exact hreadsMaxId.bind (hreadsStart.bind (hreadsRows.bind (Reads.bind rfl (reads_pure f []))))

/-- Every file that can be written is written in some text, and from all of its clear texts it is
read back. -/
theorem read_written {f : GameFile} (hf : f.Writable) :
    (∃ text : String, WritesFile .clear f text.toList) ∧
      ∀ text : String, WritesFile .clear f text.toList → GameFile.read text = .ok f := by
  constructor
  · obtain ⟨text, hwrites⟩ := hf.exists_writesFile
    exact ⟨String.ofList text, by rwa [String.toList_ofList]⟩
  · intro text hwrites
    have hread := reads_file hf hwrites
    unfold Reads at hread
    unfold GameFile.read
    rcases hfile : file text.toList with ⟨value?, failed?⟩
    rw [hfile] at hread
    simp only at hread
    subst hread
    simp only [hfile]

/-- A name that holds the sign of the end of a row, and a comment that looks like one. -/
def ferry : GameFile :=
  ⟨none, some 7, [⟨7, 3, .odd, [7, 10], some "a;b"⟩, ⟨10, 0, .even, [7], none⟩]⟩

def ferryText : String := "start 7;\n7 3 1 7,10\"a;b\" \"c;10\t0 07 d\";"

theorem ferry_writable : ferry.Writable where
  maxId_lt := fun _ h => nomatch h
  start_lt := by
    intro n hn
    obtain rfl := Option.some.inj hn
    decide
  row := by
    intro row hrow
    simp only [ferry, List.mem_cons, List.not_mem_nil, or_false] at hrow
    rcases hrow with rfl | rfl
    · exact ⟨by decide, by decide, by decide, by decide, by decide⟩
    · exact ⟨by decide, by decide, by decide, by decide, fun _ h => nomatch h⟩

theorem ferry_written : WritesFile .clear ferry ferryText.toList := by
  have hstart : WritesHeader "start" ferry.start? _ :=
    @WritesHeader.present _ 7 [] [' '] [] ['\n'] .nil (by decide) .nil (by decide)
  have hfirst : WritesRow .clear _ _ := @WritesRow.mk _ ⟨7, 3, .odd, [7, 10], some "a;b"⟩
    [] [' '] [' '] [' '] _ _ [' ', '"', 'c'] [] .nil ⟨by decide, by decide⟩ ⟨by decide, by decide⟩
    (by decide) (.more .nil .nil (.last 10)) (.present .nil (by decide))
    ⟨by decide, fun h => nomatch h⟩ .nil
  have hsecond : WritesRow .clear _ _ := @WritesRow.mk _ ⟨10, 0, .even, [7], none⟩
    [] ['\t'] [' '] [] _ _ [' ', 'd', '"'] [] .nil ⟨by decide, by decide⟩ ⟨by decide, by decide⟩
    .nil (.last 7) .absent ⟨by decide, fun _ => .cons (by decide)⟩ .nil
  exact @WritesFile.mk .clear ferry [] _ _ .absent hstart (.cons hfirst (.cons hsecond .nil))

theorem read_written_ferry : GameFile.read ferryText = .ok ferry :=
  (read_written ferry_writable).2 ferryText ferry_written

end GameFile

end ParityGames
