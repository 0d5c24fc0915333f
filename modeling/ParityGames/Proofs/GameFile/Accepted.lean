import ParityGames.Proofs.Data.Checked
import ParityGames.Proofs.GameFile.Reading
import ParityGames.Proofs.Text.Splitting

/-! # Accepted texts are game files

A text that is accepted is written by the grammar, and it is the file that was read that it writes.
Every part takes the blanks behind it along, so that each of them is found between two parts; those
in front of a name that is missing go to the comment.
-/

namespace ParityGames

namespace GameFile

open Text Scanner

variable {n : Nat} {numbers : List Nat} {text rest : List Char}

/-! ## Numbers and signs -/

theorem taken_number (h : number.Reads text n rest) :
    ∃ lead last, Blanks lead ∧ Blanks last ∧ n < numberBound ∧
      text = lead ++ (Nat.toDigits 10 n ++ (last ++ rest)) := by
  obtain ⟨lead, core, last, hlead, hlast, htext, hcore⟩ := h.of_padded_blanks
  obtain ⟨hn, hdigits⟩ := hcore.of_integer (by decide)
  exact ⟨lead, last, hlead, hlast, hn, by rw [htext, hdigits]⟩

theorem taken_sign {c : Char} (h : (padded (char c)).Reads text () rest) :
    ∃ lead last, Blanks lead ∧ Blanks last ∧ text = lead ++ c :: (last ++ rest) := by
  obtain ⟨lead, core, last, hlead, hlast, htext, hcore⟩ := h.of_padded_blanks
  exact ⟨lead, last, hlead, hlast, by rw [htext, hcore.of_char]⟩

theorem taken_player {p : Player} (h : player.Reads text p rest) :
    text = Nat.toDigits 10 p.number ++ rest := by
  unfold Reads player at h
  split at h <;> cases h <;> rfl

theorem length_lt_of_number (h : number.Reads text n rest) : rest.length < text.length := by
  obtain ⟨lead, last, -, -, -, htext⟩ := taken_number h
  have hpos : 0 < (Nat.toDigits 10 n).length := Nat.length_toDigits_pos
  rw [htext]
  simp only [List.length_append]
  omega

theorem length_lt_of_item (text : List Char) (n : Nat) (rest : List Char)
    (h : Scanner.Reads (do comma; number) text n rest) : rest.length < text.length := by
  obtain ⟨_, mid, hcomma, hnumber⟩ := h.of_bind
  obtain ⟨lead, last, -, -, htext⟩ := taken_sign hcomma
  have hlt := length_lt_of_number hnumber
  rw [htext]
  simp only [List.length_append, List.length_cons]
  omega

/-! ## Rows -/

/-- The list, from the number that was read first. -/
theorem taken_items {mid : List Char} (hmore : ReadsAll (do comma; number) mid numbers rest) :
    ∀ {text : List Char} {n : Nat}, number.Reads text n mid →
      ∃ lead body last, Blanks lead ∧ Blanks last ∧ WritesNumbers (n :: numbers) body ∧
        (∀ m ∈ n :: numbers, m < numberBound) ∧ text = lead ++ (body ++ (last ++ rest)) := by
  induction hmore with
  | stop =>
      intro text n hfirst
      obtain ⟨lead, last, hlead, hlast, hn, htext⟩ := taken_number hfirst
      exact ⟨lead, _, last, hlead, hlast, .last n, by simpa using hn, htext⟩
  | next hitem _ _ ih =>
      intro text n hfirst
      obtain ⟨_, mid, hcomma, hnumber⟩ := hitem.of_bind
      obtain ⟨lead, between, hlead, hbetween, hn, htext⟩ := taken_number hfirst
      obtain ⟨before, after, hbefore, hafter, hcommaText⟩ := taken_sign hcomma
      obtain ⟨lead', body, last, hlead', hlast, hbody, hbound, hmid⟩ := ih hnumber
      refine ⟨lead, _, last, hlead, hlast,
        .more (hbetween.append hbefore) (hafter.append hlead') hbody, ?_, ?_⟩
      · intro m hm
        rcases List.mem_cons.1 hm with rfl | hm
        · exact hn
        · exact hbound m hm
      · rw [htext, hcommaText, hmid]
        simp only [List.append_assoc, List.cons_append]

theorem taken_numbers (h : (separated number comma).Reads text numbers rest) :
    ∃ lead body last, Blanks lead ∧ Blanks last ∧ WritesNumbers numbers body ∧
      (∀ m ∈ numbers, m < numberBound) ∧ text = lead ++ (body ++ (last ++ rest)) := by
  obtain ⟨first, mid, hfirst, hrest⟩ := h.of_bind
  obtain ⟨more, mid', hmore, hpure⟩ := hrest.of_bind
  obtain ⟨rfl, rfl⟩ := hpure.of_pure
  exact taken_items (hmore.of_many length_lt_of_item) hfirst

theorem taken_quotedName {name : String} (h : quotedName.Reads text name rest) :
    '"' ∉ name.toList ∧ text = '"' :: (name.toList ++ '"' :: rest) := by
  obtain ⟨_, inside, hopen, h⟩ := h.of_bind
  obtain ⟨chars, mid, hspan, h⟩ := h.of_bind
  obtain ⟨_, mid', hclose, hpure⟩ := h.of_bind
  obtain ⟨rfl, rfl⟩ := hpure.of_pure
  obtain ⟨hchars, hmid⟩ := hspan.of_span
  have hinside : inside = chars ++ '"' :: rest := by
    rw [← hclose.of_char, hmid, hchars, List.takeWhile_append_dropWhile]
  rw [String.toList_ofList, hopen.of_char, hinside]
  refine ⟨fun hquote => ?_, rfl⟩
  rw [hchars] at hquote
  simpa using List.all_eq_true.1 List.all_takeWhile _ hquote

/-- The blanks in front of a name that is missing are left to the comment. -/
theorem taken_name {name? : Option String} {blanks : List Char} (hblanks : Blanks blanks)
    (h : (optional (padded quotedName)).Reads text name? rest) :
    ∃ name last, WritesName name? name ∧ Blanks last ∧ blanks ++ text = name ++ (last ++ rest) := by
  rcases h.of_optional with ⟨name, rfl, hname⟩ | ⟨rfl, -, rfl⟩
  · obtain ⟨lead, core, last, hlead, hlast, htext, hcore⟩ := hname.of_padded_blanks
    obtain ⟨hquote, hcoreText⟩ := taken_quotedName hcore
    refine ⟨_, last, .present (hblanks.append hlead) hquote, hlast, ?_⟩
    rw [htext, hcoreText]
    simp only [List.append_assoc, List.cons_append, List.nil_append]
  · exact ⟨[], blanks, .absent, hblanks, rfl⟩

theorem taken_comment {mid blanks : List Char} (hblanks : Blanks blanks)
    (hskip : (skip (· ≠ ';')).Reads text () mid) (hsemicolon : semicolon.Reads mid () rest) :
    ∃ comment last, ';' ∉ comment ∧ Blanks last ∧
      blanks ++ text = comment ++ ';' :: (last ++ rest) := by
  obtain ⟨lead, last, hlead, hlast, hmid⟩ := taken_sign hsemicolon
  refine ⟨blanks ++ (text.takeWhile (· ≠ ';') ++ lead), last, fun hmem => ?_, hlast, ?_⟩
  · rcases List.mem_append.1 hmem with hmem | hmem
    · exact hblanks.not_mem (by decide) hmem
    · rcases List.mem_append.1 hmem with hmem | hmem
      · simpa using List.all_eq_true.1 List.all_takeWhile _ hmem
      · exact hlead.not_mem (by decide) hmem
  · have htext : text = text.takeWhile (· ≠ ';') ++ mid := by
      rw [hskip.of_skip, List.takeWhile_append_dropWhile]
    calc blanks ++ text = blanks ++ (text.takeWhile (· ≠ ';') ++ mid) :=
          congrArg (blanks ++ ·) htext
      _ = blanks ++ (text.takeWhile (· ≠ ';') ++ lead) ++ ';' :: (last ++ rest) := by
          rw [hmid]
          simp only [List.append_assoc]

theorem parts_of_row {r : GameRow} (h : row.Reads text r rest) :
    ∃ afterId afterPriority afterPlayer afterSuccessors afterName ending,
      number.Reads text r.id afterId ∧ number.Reads afterId r.priority afterPriority ∧
      player.Reads afterPriority r.player afterPlayer ∧
      (separated number comma).Reads afterPlayer r.successors afterSuccessors ∧
      (optional (padded quotedName)).Reads afterSuccessors r.name? afterName ∧
      (skip (· ≠ ';')).Reads afterName () ending ∧ semicolon.Reads ending () rest := by
  obtain ⟨_, ending, hbody, h⟩ := h.of_bind
  obtain ⟨_, _, hsemicolon, hpure⟩ := h.of_bind
  obtain ⟨rfl, rfl⟩ := hpure.of_pure
  obtain ⟨id, afterId, hid, h⟩ := hbody.of_bind
  obtain ⟨priority, afterPriority, hpriority, h⟩ := h.of_bind
  obtain ⟨owner, afterPlayer, hplayer, h⟩ := h.of_bind
  obtain ⟨successors, afterSuccessors, hsuccessors, h⟩ := h.of_bind
  obtain ⟨name?, afterName, hname, h⟩ := h.of_bind
  obtain ⟨_, _, hskip, hpure⟩ := h.of_bind
  obtain ⟨rfl, rfl⟩ := hpure.of_pure
  exact ⟨afterId, afterPriority, afterPlayer, afterSuccessors, afterName, ending, hid, hpriority,
    hplayer, hsuccessors, hname, hskip, hsemicolon⟩

theorem taken_row {r : GameRow} (h : row.Reads text r rest) :
    ∃ front, WritesRow .free r front ∧ r.Writable ∧ text = front ++ rest := by
  obtain ⟨afterId, afterPriority, afterPlayer, afterSuccessors, afterName, ending, hid, hpriority,
    hplayer, hsuccessors, hname, hskip, hsemicolon⟩ := parts_of_row h
  obtain ⟨lead, gap, hlead, hgap, hidLt, htext⟩ := taken_number hid
  obtain ⟨lead', gap', hlead', hgap', hpriorityLt, hafterId⟩ := taken_number hpriority
  obtain ⟨before, body, last, hbefore, hlast, hbody, hbound, hafterPlayer⟩ :=
    taken_numbers hsuccessors
  obtain ⟨name, last', hname', hlast', hafterSuccessors⟩ := taken_name hlast hname
  obtain ⟨comment, last'', hcomment, hlast'', hafterName⟩ :=
    taken_comment hlast' hskip hsemicolon
  refine ⟨_, @WritesRow.mk .free r lead (gap ++ lead') gap' before body name comment last'' hlead
    (hgap.append hlead') hgap' hbefore hbody hname' hcomment hlast'',
    ⟨hidLt, hpriorityLt, hbody.ne_nil, hbound, hname'.quote_not_mem⟩, ?_⟩
  · rw [htext, hafterId, taken_player hplayer, hafterPlayer, hafterSuccessors, hafterName]
    simp only [List.append_assoc, List.cons_append]

theorem length_lt_of_row (text : List Char) (r : GameRow) (rest : List Char)
    (h : row.Reads text r rest) : rest.length < text.length := by
  obtain ⟨front, hwrites, -, htext⟩ := taken_row h
  cases hwrites
  rw [htext]
  simp only [List.length_append, List.length_cons]
  omega

theorem taken_rows {rows : List GameRow} (h : ReadsAll row text rows rest) :
    ∃ front, WritesRows .free rows front ∧ (∀ r ∈ rows, r.Writable) ∧ text = front ++ rest := by
  induction h with
  | stop => exact ⟨[], .nil, (fun _ hr => nomatch hr), rfl⟩
  | next hrow _ _ ih =>
      obtain ⟨front, hwrites, hwritable, htext⟩ := taken_row hrow
      obtain ⟨more, hmore, hall, hmid⟩ := ih
      refine ⟨front ++ more, .cons hwrites hmore, fun r hr => ?_, ?_⟩
      · rcases List.mem_cons.1 hr with rfl | hr
        · exact hwritable
        · exact hall r hr
      · rw [htext, hmid, List.append_assoc]

/-! ## Files -/

theorem taken_header {word : String} (h : (header word).Reads text n rest) :
    ∃ front, WritesHeader word (some n) front ∧ n < numberBound ∧ text = front ++ rest := by
  obtain ⟨_, afterWord, hword, h⟩ := h.of_bind
  obtain ⟨n, afterNumber, hnumber, h⟩ := h.of_bind
  obtain ⟨_, _, hsemicolon, hpure⟩ := h.of_bind
  obtain ⟨rfl, rfl⟩ := hpure.of_pure
  obtain ⟨lead, core, last, hlead, hlast, htext, hcore⟩ := hword.of_padded_blanks
  obtain ⟨lead', last', hlead', hlast', hn, hafterWord⟩ := taken_number hnumber
  obtain ⟨lead'', last'', hlead'', hlast'', hafterNumber⟩ := taken_sign hsemicolon
  refine ⟨_, .present hlead (hlast.append hlead') (hlast'.append hlead'') hlast'', hn, ?_⟩
  rw [htext, hcore.of_keyword, hafterWord, hafterNumber]
  simp only [List.append_assoc, List.cons_append]

theorem taken_optional_header {word : String} {n? : Option Nat}
    (h : (optional (header word)).Reads text n? rest) :
    ∃ front, WritesHeader word n? front ∧ (∀ n, n? = some n → n < numberBound) ∧
      text = front ++ rest := by
  rcases h.of_optional with ⟨n, rfl, hheader⟩ | ⟨rfl, -, rfl⟩
  · obtain ⟨front, hwrites, hn, htext⟩ := taken_header hheader
    exact ⟨front, hwrites, fun m hm => Option.some.inj hm ▸ hn, htext⟩
  · exact ⟨[], .absent, (fun _ hnone => nomatch hnone), rfl⟩

theorem parts_of_file {f : GameFile} (h : file.Reads text f rest) :
    ∃ first second, (optional (header "parity")).Reads text f.maxId? first ∧
      (optional (header "start")).Reads first f.start? second ∧
      ReadsAll row second f.rows [] ∧ rest = [] := by
  obtain ⟨maxId?, first, hmaxId, h⟩ := h.of_bind
  obtain ⟨start?, second, hstart, h⟩ := h.of_bind
  obtain ⟨rows, third, hrows, h⟩ := h.of_bind
  obtain ⟨_, fourth, hending, hpure⟩ := h.of_bind
  obtain ⟨rfl, rfl⟩ := hpure.of_pure
  cases third with
  | nil =>
      cases hending
      exact ⟨first, second, hmaxId, hstart, hrows.of_many length_lt_of_row, rfl⟩
  | cons => cases hending

theorem read_eq_ok_iff {text : String} {f : GameFile} :
    GameFile.read text = .ok f ↔ file.Reads text.toList f [] := by
  unfold GameFile.read Reads
  rcases hfile : file text.toList with ⟨value?, failed?⟩
  cases value? with
  | none => simp [hfile]
  | some entry =>
      obtain ⟨f', rest⟩ := entry
      obtain ⟨-, -, -, -, -, rfl⟩ :=
        parts_of_file (show file.Reads text.toList f' rest from congrArg Scan.value? hfile)
      simp [hfile]

/-- A text that is accepted consists of headers and rows, one after the other up to its end, and
what was read are their values: the file can be written, and this text is one way to write it. -/
theorem accepted_written {text : String} {f : GameFile} (hread : GameFile.read text = .ok f) :
    f.Writable ∧ WritesFile .free f text.toList := by
  obtain ⟨first, second, hmaxId, hstart, hrows, -⟩ := parts_of_file (read_eq_ok_iff.1 hread)
  obtain ⟨maxId, hwritesMaxId, hmaxIdLt, htext⟩ := taken_optional_header hmaxId
  obtain ⟨start, hwritesStart, hstartLt, hfirst⟩ := taken_optional_header hstart
  obtain ⟨rows, hwritesRows, hwritable, hsecond⟩ := taken_rows hrows
  refine ⟨⟨hmaxIdLt, hstartLt, hwritable⟩, ?_⟩
  rw [htext, hfirst, hsecond, List.append_nil, ← List.append_assoc]
  exact .mk hwritesMaxId hwritesStart hwritesRows

/-- Numbers without gaps, a list that is given up behind a comma that another number follows too
late, a quote that is not closed in its row, and a name that ends in front of another quote. -/
def crowdedText : String := "start 7;0000, 1,\"a;7 3 1 0\"b\" \"c;"

def crowded : GameFile :=
  ⟨none, some 7, [⟨0, 0, .even, [0, 1], none⟩, ⟨7, 3, .odd, [0], some "b"⟩]⟩

theorem accepted_written_crowded : GameFile.read crowdedText = .ok crowded ∧ crowded.Writable ∧
    WritesFile .free crowded crowdedText.toList := by
  have hread : GameFile.read crowdedText = .ok crowded := by decide +kernel
  exact ⟨hread, accepted_written hread⟩

end GameFile

end ParityGames
