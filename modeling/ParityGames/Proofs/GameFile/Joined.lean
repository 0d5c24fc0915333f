import ParityGames.Proofs.GameFile.Accepted

/-! # Files one behind the other

What is read does not depend on the text behind it. Numbers, lists and headers are settled in front
of the semicolon that ends them. A name looks further ahead, for a quote that closes it, so it is
settled only if no quote follows; and the blanks behind a semicolon go on into the text that
follows.
-/

namespace ParityGames

namespace GameFile

open Text Scanner

variable {n : Nat} {numbers : List Nat} {text mid rest more : List Char}

/-! ## In front of a semicolon -/

theorem semicolon_not_mem_digits (n : Nat) : ';' ∉ Nat.toDigits 10 n :=
  fun h => absurd (isDigit_of_mem_digits h) (by decide)

theorem number_settled (hmem : ';' ∈ text) : number.Settled more text := by
  have hcore : ';' ∈ text.dropWhile isBlank := mem_dropWhile (by decide) hmem
  refine Settled.padded (settled_integer (by decide) hcore) (by decide) hmem fun n rest h => ?_
  rw [(h.of_integer (by decide)).2, List.mem_append] at hcore
  exact hcore.resolve_left (semicolon_not_mem_digits n)

theorem mem_of_number (h : number.Reads text n rest) (hmem : ';' ∈ text) : ';' ∈ rest := by
  obtain ⟨lead, last, hlead, hlast, -, rfl⟩ := taken_number h
  simpa [hlead.not_mem, hlast.not_mem, semicolon_not_mem_digits, show isBlank ';' = false by decide]
    using hmem

theorem comma_settled (hmem : ';' ∈ text) : comma.Settled more text := by
  have hcore : ';' ∈ text.dropWhile isBlank := mem_dropWhile (by decide) hmem
  refine Settled.padded (settled_char (List.ne_nil_of_mem hcore)) (by decide) hmem
    fun _ rest h => ?_
  rw [Reads.of_char h, List.mem_cons] at hcore
  exact hcore.resolve_left (by decide)

theorem mem_of_comma (h : comma.Reads text () rest) (hmem : ';' ∈ text) : ';' ∈ rest := by
  obtain ⟨lead, last, hlead, hlast, rfl⟩ := taken_sign h
  simpa [hlead.not_mem, hlast.not_mem, show isBlank ';' = false by decide] using hmem

theorem numbers_append (h : (separated number comma).Reads text numbers rest)
    (hmem : ';' ∈ text) : (separated number comma).Reads (text ++ more) numbers (rest ++ more) := by
  obtain ⟨first, mid, hfirst, h⟩ := h.of_bind
  obtain ⟨items, _, hitems, hpure⟩ := h.of_bind
  obtain ⟨rfl, rfl⟩ := hpure.of_pure
  have hsettled : ∀ text, ';' ∈ text →
      Settled more (do comma; number : Scanner Nat) text := fun text hmem =>
    (comma_settled hmem).bind fun _ mid hcomma => number_settled (mem_of_comma hcomma hmem)
  have hkeeps : ∀ text n rest, ';' ∈ text → Reads (do comma; number : Scanner Nat) text n rest →
      ';' ∈ rest := by
    intro text n rest hmem hitem
    obtain ⟨_, mid, hcomma, hnumber⟩ := hitem.of_bind
    exact mem_of_number hnumber (mem_of_comma hcomma hmem)
  have hmore := (hitems.of_many length_lt_of_item).append hsettled hkeeps (mem_of_number hfirst hmem)
  exact ((number_settled hmem).reads hfirst).bind (hmore.many.bind (reads_pure _ _))

/-- The blanks behind a semicolon go on into the text that follows. -/
theorem semicolon_append (h : semicolon.Reads text () rest) :
    semicolon.Reads (text ++ more) () ((rest ++ more).dropWhile isBlank) := by
  obtain ⟨lead, last, hlead, hlast, rfl⟩ := taken_sign h
  have hread : semicolon.Reads (lead ++ ';' :: (last ++ (rest ++ more))) ()
      ((last ++ (rest ++ more)).dropWhile isBlank) := reads_sign hlead (by decide)
  rw [hlast.dropWhile] at hread
  simpa only [List.append_assoc, List.cons_append] using hread

theorem semicolon_fails_append (h : semicolon.Fails text) (hmem : ';' ∈ text) :
    semicolon.Fails (text ++ more) := by
  have hcore : ';' ∈ text.dropWhile isBlank := mem_dropWhile (by decide) hmem
  refine Fails.padded ?_
  rw [dropWhile_append_of_mem (by decide) hmem]
  exact (settled_char (List.ne_nil_of_mem hcore)).fails (Fails.of_padded h)

/-! ## Rows -/

theorem reads_quotedName {name : List Char} (hquote : '"' ∉ name) (rest : List Char) :
    quotedName.Reads ('"' :: (name ++ '"' :: rest)) (String.ofList name) rest := by
  have hspan : (span (· ≠ '"')).Reads (name ++ '"' :: rest) name ('"' :: rest) := by
    refine reads_span (fun c hc => ?_) (.cons (by decide))
    rw [decide_eq_true_eq]
    rintro rfl
    exact hquote hc
  exact (reads_char '"' _).bind (hspan.bind ((reads_char '"' rest).bind (reads_pure _ _)))

/-- What starts with a quote and is no name has no other quote. -/
theorem quotedName_fails_iff : quotedName.Fails ('"' :: text) ↔ '"' ∉ text := by
  constructor
  · intro hfails hquote
    obtain ⟨name, rest, rfl, hname⟩ := List.eq_append_cons_of_mem hquote
    have hreads := reads_quotedName hname rest
    rw [Reads, show (quotedName _).value? = none from hfails] at hreads
    cases hreads
  · intro hquote
    unfold Fails
    cases hvalue : (quotedName ('"' :: text)).value? with
    | none => rfl
    | some entry =>
        obtain ⟨-, htext⟩ := @taken_quotedName _ entry.2 entry.1 hvalue
        rw [(List.cons.inj htext).2] at hquote
        simp at hquote

theorem quotedName_append {name : String} (h : quotedName.Reads text name rest) :
    quotedName.Reads (text ++ more) name (rest ++ more) := by
  obtain ⟨hquote, rfl⟩ := taken_quotedName h
  have hread := reads_quotedName hquote (rest ++ more)
  rw [String.ofList_toList] at hread
  simpa only [List.append_assoc, List.cons_append] using hread

/-- A name that is not closed is not closed by a text without quotes. -/
theorem quotedName_fails_append (hquote : '"' ∉ more) (hne : text ≠ [])
    (h : quotedName.Fails text) : quotedName.Fails (text ++ more) := by
  rcases h.of_bind with hopen | ⟨_, inside, hopen, -⟩
  · exact ((settled_char hne).fails hopen).bind
  · obtain rfl := hopen.of_char
    rw [quotedName_fails_iff] at h
    rw [List.cons_append, quotedName_fails_iff, List.mem_append, not_or]
    exact ⟨h, hquote⟩

theorem name_append {name? : Option String} (hquote : '"' ∉ more)
    (h : (optional (padded quotedName)).Reads text name? rest) (hmem : ';' ∈ rest) :
    (optional (padded quotedName)).Reads (text ++ more) name? (rest ++ more) := by
  rcases h.of_optional with ⟨name, rfl, hname⟩ | ⟨rfl, hfails, rfl⟩
  · obtain ⟨after, hread, rfl⟩ := hname.of_padded
    have hopen : '"' ∈ text.dropWhile isBlank := by
      rw [(taken_quotedName hread).2]
      exact List.mem_cons_self
    refine Reads.optional ?_
    rw [← dropWhile_append_of_mem (by decide) (List.dropWhile_subset _ hmem)]
    refine Reads.padded ?_
    rw [dropWhile_append_of_mem (by decide) (List.dropWhile_subset _ hopen)]
    exact quotedName_append hread
  · refine Fails.optional (Fails.padded ?_)
    rw [dropWhile_append_of_mem (by decide) hmem]
    have hmem' : ';' ∈ rest.dropWhile isBlank := mem_dropWhile (by decide) hmem
    exact quotedName_fails_append hquote (List.ne_nil_of_mem hmem') hfails.of_padded

/-- The semicolon of a row ends everything in front of it, apart from the name. -/
theorem row_append {r : GameRow} (hquote : '"' ∉ more) (h : row.Reads text r rest) :
    row.Reads (text ++ more) r ((rest ++ more).dropWhile isBlank) := by
  obtain ⟨afterId, afterPriority, afterPlayer, afterSuccessors, afterName, ending, hid, hpriority,
    hplayer, hsuccessors, hname, hskip, hsemicolon⟩ := parts_of_row h
  have hafterName : ';' ∈ afterName := by
    obtain ⟨lead, last, -, -, hending⟩ := taken_sign hsemicolon
    refine List.dropWhile_subset (· ≠ ';') ?_
    rw [← hskip.of_skip, hending]
    simp
  have hafterSuccessors : ';' ∈ afterSuccessors := by
    obtain ⟨name, last, -, -, htext⟩ := taken_name .nil hname
    rw [List.nil_append] at htext
    simp [htext, hafterName]
  have hafterPlayer : ';' ∈ afterPlayer := by
    obtain ⟨lead, body, last, -, -, -, -, htext⟩ := taken_numbers hsuccessors
    simp [htext, hafterSuccessors]
  have hafterPriority : ';' ∈ afterPriority := by
    simp [taken_player hplayer, hafterPlayer]
  have hafterId : ';' ∈ afterId := by
    obtain ⟨lead, last, -, -, -, htext⟩ := taken_number hpriority
    simp [htext, hafterPriority]
  have htext : ';' ∈ text := by
    obtain ⟨lead, last, -, -, -, htext⟩ := taken_number hid
    simp [htext, hafterId]
  have hplayer' : player.Reads (afterPriority ++ more) r.player (afterPlayer ++ more) := by
    rw [taken_player hplayer, List.append_assoc]
    exact reads_player r.player _
  have hskip' : (skip (· ≠ ';')).Reads (afterName ++ more) () (ending ++ more) := by
    rw [hskip.of_skip, ← dropWhile_append_of_mem (by decide) hafterName]
    exact reads_skip _ _
  have hbody : rowBody.Reads (text ++ more) r (ending ++ more) :=
    ((number_settled htext).reads hid).bind <| ((number_settled hafterId).reads hpriority).bind <|
      hplayer'.bind <| (numbers_append hsuccessors hafterPlayer).bind <|
        (name_append hquote hname hafterName).bind <| hskip'.bind <| reads_pure r _
  exact hbody.bind ((semicolon_append hsemicolon).bind (reads_pure r _))

theorem semicolon_mem_of_row {r : GameRow} (h : row.Reads text r rest) : ';' ∈ text := by
  obtain ⟨front, hwrites, -, rfl⟩ := taken_row h
  cases hwrites
  simp

theorem semicolon_mem_of_rows {rows : List GameRow} (h : ReadsAll row text rows []) :
    text = [] ∨ ';' ∈ text := by
  cases h with
  | stop => exact Or.inl rfl
  | next hrow => exact Or.inr (semicolon_mem_of_row hrow)

/-- A row may be read with or without the blanks in front of it. -/
theorem UpToBlanks.row {r : GameRow} (h : UpToBlanks text mid)
    (hrow : GameFile.row.Reads text r rest) : GameFile.row.Reads mid r rest := by
  rwa [Reads, ← row_dropWhile, h.dropWhile, row_dropWhile]

theorem UpToBlanks.rows {rows : List GameRow} (h : UpToBlanks text mid)
    (hrows : ReadsAll GameFile.row text rows []) : ReadsAll GameFile.row mid rows [] := by
  cases hrows with
  | stop hfails =>
      obtain rfl : mid = [] := h.elim id id
      exact .stop hfails
  | next hrow _ hmore =>
      have hmid := h.row hrow
      exact .next hmid (length_lt_of_row _ _ _ hmid) hmore

theorem rows_append {rows moreRows : List GameRow} (hquote : '"' ∉ more)
    (hmore : ReadsAll row more moreRows []) (h : ReadsAll row text rows rest) (hrest : rest = [])
    (hmid : UpToBlanks (text ++ more) mid) : ReadsAll row mid (rows ++ moreRows) [] := by
  induction h generalizing mid with
  | stop =>
      subst hrest
      exact hmid.rows hmore
  | next hrow _ _ ih =>
      have hread := hmid.row (row_append hquote hrow)
      exact .next hread (length_lt_of_row _ _ _ hread) (ih hrest (.inr rfl))

/-! ## Headers -/

section Header

variable {word : String}

theorem keyword_settled (hword : ';' ∉ word.toList) (hmem : ';' ∈ text) :
    (padded (keyword word.toList)).Settled more text := by
  have hcore : ';' ∈ text.dropWhile isBlank := mem_dropWhile (by decide) hmem
  refine Settled.padded (settled_keyword hword hcore) (by decide) hmem fun _ rest h => ?_
  rw [Reads.of_keyword h, List.mem_append] at hcore
  exact hcore.resolve_left hword

theorem mem_of_keyword (hword : ';' ∉ word.toList)
    (h : (padded (keyword word.toList)).Reads text () rest) (hmem : ';' ∈ text) : ';' ∈ rest := by
  obtain ⟨lead, core, last, hlead, hlast, rfl, hcore⟩ := h.of_padded_blanks
  obtain rfl := hcore.of_keyword
  simpa [hlead.not_mem, hlast.not_mem, hword, show isBlank ';' = false by decide] using hmem

theorem semicolon_mem_of_header (h : (header word).Reads text n rest) : ';' ∈ text := by
  obtain ⟨front, hwrites, -, rfl⟩ := taken_header h
  cases hwrites
  simp

theorem header_append (hword : ';' ∉ word.toList) (h : (header word).Reads text n rest) :
    (header word).Reads (text ++ more) n ((rest ++ more).dropWhile isBlank) := by
  have hmem := semicolon_mem_of_header h
  obtain ⟨_, afterWord, hkeyword, h⟩ := h.of_bind
  obtain ⟨_, afterNumber, hnumber, h⟩ := h.of_bind
  obtain ⟨_, _, hsemicolon, hpure⟩ := h.of_bind
  obtain ⟨rfl, rfl⟩ := hpure.of_pure
  have hafterWord := mem_of_keyword hword hkeyword hmem
  exact ((keyword_settled hword hmem).reads hkeyword).bind <|
    ((number_settled hafterWord).reads hnumber).bind <|
      (semicolon_append hsemicolon).bind (reads_pure _ _)

theorem header_fails_append (hword : ';' ∉ word.toList) (h : (header word).Fails text)
    (hmem : ';' ∈ text) : (header word).Fails (text ++ more) := by
  have hkeyword := @keyword_settled text more word hword hmem
  rcases h.of_bind with h | ⟨_, afterWord, hread, h⟩
  · exact (hkeyword.fails h).bind
  · have hafterWord := mem_of_keyword hword hread hmem
    have hnumber := @number_settled afterWord more hafterWord
    refine (hkeyword.reads hread).fails_bind ?_
    rcases h.of_bind with h | ⟨_, afterNumber, hread', h⟩
    · exact (hnumber.fails h).bind
    · refine (hnumber.reads hread').fails_bind ?_
      rcases h.of_bind with h | ⟨_, _, -, h⟩
      · exact (semicolon_fails_append h (mem_of_number hread' hafterWord)).bind
      · exact absurd h not_fails_pure

/-- A header is read or given up again, if the text behind does not bring one. -/
theorem optional_header_append {n? : Option Nat} (hword : ';' ∉ word.toList)
    (h : (optional (header word)).Reads text n? rest) (hrest : rest = [] ∨ ';' ∈ rest)
    (hmore : (header word).Fails more) (hmid : UpToBlanks (text ++ more) mid) :
    ∃ mid', (optional (header word)).Reads mid n? mid' ∧ UpToBlanks (rest ++ more) mid' := by
  rcases h.of_optional with ⟨n, rfl, hread⟩ | ⟨rfl, hfails, rfl⟩
  · have hread' := @header_append n text rest more word hword hread
    rw [Reads, ← header_dropWhile, ← hmid.dropWhile, header_dropWhile] at hread'
    exact ⟨_, Reads.optional hread', .inr rfl⟩
  · have hfails' : (header word).Fails (rest ++ more) := by
      rcases hrest with rfl | hmem
      · exact hmore
      · exact header_fails_append hword hfails hmem
    rw [Fails, ← header_dropWhile, ← hmid.dropWhile, header_dropWhile] at hfails'
    exact ⟨mid, Fails.optional hfails', hmid⟩

end Header

/-! ## Files -/

theorem fails_of_optional_none {p : Scanner Nat} (h : (optional p).Reads text none rest) :
    p.Fails text ∧ rest = text := by
  rcases h.of_optional with ⟨_, hnone, -⟩ | ⟨-, hfails, hrest⟩
  · cases hnone
  · exact ⟨hfails, hrest⟩

/-- Two accepted texts, one behind the other, are accepted, and the rows of the second follow those
of the first. -/
theorem read_append {a b : String} {f g : GameFile} (hfirst : GameFile.read a = .ok f)
    (hsecond : GameFile.read b = .ok g) (hmaxId : g.maxId? = none) (hstart : g.start? = none)
    (hquote : '"' ∉ b.toList) :
    GameFile.read (a ++ b) = .ok ⟨f.maxId?, f.start?, f.rows ++ g.rows⟩ := by
  obtain ⟨afterMaxId, afterStart, hreadsMaxId, hreadsStart, hrows, -⟩ :=
    parts_of_file (read_eq_ok_iff.1 hfirst)
  obtain ⟨afterMaxId', afterStart', hreadsMaxId', hreadsStart', hrows', -⟩ :=
    parts_of_file (read_eq_ok_iff.1 hsecond)
  rw [hmaxId] at hreadsMaxId'
  rw [hstart] at hreadsStart'
  obtain ⟨hnoMaxId, rfl⟩ := fails_of_optional_none hreadsMaxId'
  obtain ⟨hnoStart, rfl⟩ := fails_of_optional_none hreadsStart'
  have hafterStart := semicolon_mem_of_rows hrows
  have hafterMaxId : afterMaxId = [] ∨ ';' ∈ afterMaxId := by
    rcases hreadsStart.of_optional with ⟨n, -, hread⟩ | ⟨-, -, rfl⟩
    · exact Or.inr (semicolon_mem_of_header hread)
    · exact hafterStart
  obtain ⟨mid, hmid, hmidBlanks⟩ := optional_header_append (by decide) hreadsMaxId hafterMaxId
    hnoMaxId (.inl rfl)
  obtain ⟨mid', hmid', hmidBlanks'⟩ := optional_header_append (by decide) hreadsStart hafterStart
    hnoStart hmidBlanks
  have hall := (rows_append hquote hrows' hrows rfl hmidBlanks').many
  rw [read_eq_ok_iff, String.toList_append]
  exact hmid.bind (hmid'.bind (hall.bind (Reads.bind rfl (reads_pure _ []))))

/-- A quote that is not closed in the first text is not closed in the second. -/
theorem read_append_unclosed :
    GameFile.read ("start 7;7 3 1 7 \"a;" ++ " 8 0 0 7,8;\n") =
      .ok ⟨none, some 7, [⟨7, 3, .odd, [7], none⟩, ⟨8, 0, .even, [7, 8], none⟩]⟩ := by
  have hfirst : GameFile.read "start 7;7 3 1 7 \"a;" =
      .ok ⟨none, some 7, [⟨7, 3, .odd, [7], none⟩]⟩ := by decide +kernel
  have hsecond : GameFile.read " 8 0 0 7,8;\n" =
      .ok ⟨none, none, [⟨8, 0, .even, [7, 8], none⟩]⟩ := by decide +kernel
  exact read_append hfirst hsecond rfl rfl (by decide)

end GameFile

end ParityGames
