import ArithTree.Proofs.CommandAgreement
import ArithTree.Proofs.TextParts

/-!
# A listing shows its tokens

A token is listed as a line with three fields: its span, the name of its kind and
its lexeme. The first two are filled up with spaces, but they are no columns: a
span may be longer than the width, and then all that follows stands further to the
right. Still the line can be taken apart, because neither field has a space of its
own. So the first space of what is left is where the field ends, and how many more
there are is known from the field itself (`eq_of_field_append_eq`).

What is read off a line is all there is to a token, if just the numbers carry
values, as those of a source do. No newline is in any line and no line is empty,
so that the lines put together can be taken apart as well.
-/

namespace ArithTree

namespace Token

/-- A field ends in one space, and then come those that fill it up. -/
theorem toList_field_append (width : Nat) (s rest : String) :
    (field width s ++ " " ++ rest).toList =
      s.toList ++ ' ' :: (List.replicate (width - s.length) ' ' ++ rest.toList) := by
  have hspace : " ".toList = [' '] := by decide
  simp only [field, String.toList_append, String.toList_ofList, List.append_assoc, hspace]
  rw [← List.append_assoc (List.replicate _ ' '), ← List.replicate_succ',
    List.replicate_succ, List.cons_append]

theorem eq_of_field_append_eq {width : Nat} {s s' rest rest' : String}
    (h : ' ' ∉ s.toList) (h' : ' ' ∉ s'.toList)
    (heq : field width s ++ " " ++ rest = field width s' ++ " " ++ rest') :
    s = s' ∧ rest = rest' := by
  have hlist := congrArg String.toList heq
  rw [toList_field_append, toList_field_append] at hlist
  obtain ⟨hs, hfilled⟩ := eq_of_append_cons_eq h h' hlist
  obtain rfl := String.toList_inj.mp hs
  exact ⟨rfl, String.toList_inj.mp (List.append_cancel_left hfilled)⟩

theorem not_mem_field {c : Char} {width : Nat} {s : String} (hs : c ∉ s.toList)
    (hc : c ≠ ' ') : c ∉ (field width s).toList := by
  simp only [field, String.toList_append, String.toList_ofList, List.mem_append, not_or]
  exact ⟨hs, fun hmem => hc (List.eq_of_mem_replicate hmem)⟩

theorem Kind.name_inj {k k' : Kind} (h : k.name = k'.name) : k = k' := by
  revert h
  cases k <;> cases k' <;> decide

theorem Kind.not_mem_name {c : Char} (hc : c.isUpper = false) (k : Kind) :
    c ∉ k.name.toList :=
  not_mem_of_forall hc (by cases k <;> simp [name])

/-- The lexeme of a number is its value, and any other is known from the kind. -/
theorem lexeme_eq_iff {t u : Token} (hkind : t.kind = u.kind) :
    t.lexeme = u.lexeme ↔ (t.kind = .number → t.value = u.value) := by
  unfold lexeme
  rw [← hkind]
  cases t.kind with
  | number => simp only [valueText_inj, forall_const]
  | plus | minus | asterisk | slash | lparen | rparen => exact iff_of_true rfl nofun

theorem text_eq (t : Token) :
    t.text = field 10 t.span.text ++ " " ++ (field 10 t.kind.name ++ " " ++ t.lexeme) := by
  simp only [text, String.append_assoc]

/-- The line of a token shows its kind and its span, and of a number the value. -/
theorem text_eq_iff (t u : Token) :
    t.text = u.text ↔
      t.kind = u.kind ∧ t.span = u.span ∧ (t.kind = .number → t.value = u.value) := by
  constructor
  · intro h
    have hspan := Span.not_mem_text (c := ' ') (by decide) (by decide)
    have hname := Kind.not_mem_name (c := ' ') (by decide)
    rw [text_eq, text_eq] at h
    obtain ⟨hspans, hrest⟩ := eq_of_field_append_eq (hspan t.span) (hspan u.span) h
    obtain ⟨hnames, hlexemes⟩ := eq_of_field_append_eq (hname t.kind) (hname u.kind) hrest
    have hkind := Kind.name_inj hnames
    exact ⟨hkind, Span.text_inj.mp hspans, (lexeme_eq_iff hkind).mp hlexemes⟩
  · rintro ⟨hkind, hspan, hvalue⟩
    rw [text, text, hspan, hkind, (lexeme_eq_iff hkind).mpr hvalue]

/-- The numbers have values, and no other tokens have. -/
def Regular (t : Token) : Prop := t.value.isSome ↔ t.kind = .number

theorem text_inj_of_regular {t u : Token} (ht : t.Regular) (hu : u.Regular) :
    t.text = u.text ↔ t = u := by
  refine ⟨fun h => ?_, congrArg text⟩
  obtain ⟨hkind, hspan, hvalue⟩ := (text_eq_iff t u).mp h
  have hvalues : t.value = u.value := by
    by_cases hnumber : t.kind = .number
    · exact hvalue hnumber
    · have hnone : t.value = none := Option.not_isSome_iff_eq_none.mp (mt ht.mp hnumber)
      have hnone' : u.value = none :=
        Option.not_isSome_iff_eq_none.mp (mt hu.mp (hkind ▸ hnumber))
      rw [hnone, hnone']
  cases t
  cases u
  congr

theorem newline_not_mem_text (t : Token) : '\n' ∉ t.text.toList := by
  have hspan : '\n' ∉ (field 10 t.span.text).toList :=
    not_mem_field (Span.not_mem_text (by decide) (by decide) t.span) (by decide)
  have hname : '\n' ∉ (field 10 t.kind.name).toList :=
    not_mem_field (Kind.not_mem_name (by decide) t.kind) (by decide)
  have hlexeme : '\n' ∉ t.lexeme.toList := by
    unfold lexeme
    split
    · exact not_mem_valueText (by decide) (by decide) t.value
    all_goals decide
  simp [text, hspan, hname, hlexeme]

theorem text_ne_empty (t : Token) : t.text ≠ "" := by
  intro h
  rw [text_eq, String.append_eq_empty_iff, String.append_eq_empty_iff] at h
  exact absurd h.1.2 (by decide)

end Token

/-- Lines that are not empty make no empty text, unless there are none. -/
theorem eq_nil_of_joined_eq_empty {ls : List String} (h : ∀ l ∈ ls, l ≠ "")
    (heq : "\n".intercalate ls = "") : ls = [] := by
  cases ls with
  | nil => rfl
  | cons l ls =>
      have hl := h l List.mem_cons_self
      cases ls with
      | nil => exact absurd (String.intercalate_singleton.symm.trans heq) hl
      | cons m ls =>
          rw [String.intercalate_cons_cons, String.append_eq_empty_iff,
            String.append_eq_empty_iff] at heq
          exact absurd heq.1.1 hl

/-- The lines of some tokens, put together. -/
def listed (ts : List Token) : String := "\n".intercalate (ts.map Token.text)

theorem map_text_of_listed {ts us : List Token} (h : listed ts = listed us) :
    ts.map Token.text = us.map Token.text := by
  have hlines : ∀ vs : List Token, ∀ l ∈ vs.map Token.text, '\n' ∉ l.toList ∧ l ≠ "" := by
    intro vs l hl
    obtain ⟨t, -, rfl⟩ := List.mem_map.mp hl
    exact ⟨t.newline_not_mem_text, t.text_ne_empty⟩
  by_cases hts : ts.map Token.text = []
  · unfold listed at h
    rw [hts, String.intercalate_nil] at h
    rw [hts, eq_nil_of_joined_eq_empty (fun l hl => (hlines us l hl).2) h.symm]
  · have hus : us.map Token.text ≠ [] := by
      intro hus
      unfold listed at h
      rw [hus, String.intercalate_nil] at h
      exact hts (eq_nil_of_joined_eq_empty (fun l hl => (hlines ts l hl).2) h)
    exact eq_of_joined_eq (fun l hl => (hlines ts l hl).1) (fun l hl => (hlines us l hl).1)
      hts hus h

theorem listed_inj {ts us : List Token} (hts : ∀ t ∈ ts, t.Regular)
    (hus : ∀ u ∈ us, u.Regular) : listed ts = listed us ↔ ts = us := by
  refine ⟨fun h => ?_, congrArg listed⟩
  have htexts := map_text_of_listed h
  clear h
  induction ts generalizing us with
  | nil => exact (List.map_eq_nil_iff.mp htexts.symm).symm
  | cons t ts ih =>
      cases us with
      | nil => cases htexts
      | cons u us =>
          obtain ⟨htext, hrest⟩ := List.cons.inj htexts
          obtain ⟨ht, hts⟩ := List.forall_mem_cons.mp hts
          obtain ⟨hu, hus⟩ := List.forall_mem_cons.mp hus
          rw [(Token.text_inj_of_regular ht hu).mp htext, ih hts hus hrest]

/-- Printed, every line is ended by a newline, the last one as well. -/
theorem Report.listing_cons (t : Token) (ts : List Token) :
    listing (t :: ts) = listed (t :: ts) ++ "\n" := by
  induction ts generalizing t with
  | nil => simp [listing, lines, line, listed]
  | cons u us ih =>
      have htail := ih u
      simp only [listing, lines, line, listed, List.map_cons, String.join_cons,
        String.intercalate_cons_cons, String.append_assoc] at htail ⊢
      rw [htail]

theorem Report.listed_of_listing {ts us : List Token} (h : listing ts = listing us) :
    listed ts = listed us := by
  have hne : ∀ (v : Token) (vs : List Token), listing (v :: vs) ≠ "" := by
    intro v vs hempty
    rw [listing_cons, String.append_eq_empty_iff] at hempty
    exact absurd hempty.2 (by decide)
  cases ts with
  | nil =>
      cases us with
      | nil => rfl
      | cons u us => exact absurd h.symm (hne u us)
  | cons t ts =>
      cases us with
      | nil => exact absurd h (hne t ts)
      | cons u us =>
          rw [listing_cons, listing_cons] at h
          exact (String.append_left_inj "\n").mp h

theorem regular_of_lex {source : Text} {ts : List Token} (h : lex source = .ok ts) :
    ∀ t ∈ ts, t.Regular := by
  intro t ht
  cases ((listing_of_lex h).2.named t).mp ht with
  | sign _ hmark =>
      exact iff_of_false (by simp) (CodePoint.kind?_ne_number hmark)
  | number => exact iff_of_true rfl rfl

/-- A line shows its token, if values are just where they should be, and the lines of
two sources are the same exactly if their tokens are, whether they are put together or
printed. -/
theorem listed_eq_iff :
    (∀ t u : Token, t.Regular → u.Regular → (t.text = u.text ↔ t = u)) ∧
    ∀ (source source' : Text) (ts us : List Token), lex source = .ok ts →
      lex source' = .ok us →
      (listed ts = listed us ↔ ts = us) ∧
        ∀ console : Console,
          (Report.scan console source).output = (Report.scan console source').output ↔
            ts = us := by
  refine ⟨fun t u ht hu => Token.text_inj_of_regular ht hu, ?_⟩
  intro source source' ts us hts hus
  have hlisted := listed_inj (regular_of_lex hts) (regular_of_lex hus)
  refine ⟨hlisted, fun console => ?_⟩
  rw [Report.scan_of_lex_ok console hts, Report.scan_of_lex_ok console hus]
  exact ⟨fun h => hlisted.mp (Report.listed_of_listing h), congrArg Report.listing⟩

/-- The lines of `7+7`, spread out and not. -/
theorem listed_of_spread :
    let seven (i : Int) : Token := ⟨.number, ⟨i, i + 1⟩, some 7⟩
    let plus (i : Int) : Token := ⟨.plus, ⟨i, i + 1⟩, none⟩
    (seven 0).Regular ∧ (plus 1).Regular ∧
      lex (.ofString "7+7") = .ok [seven 0, plus 1, seven 2] ∧
      lex (.ofString "7 + 7") = .ok [seven 0, plus 2, seven 4] ∧
      (seven 0).text ≠ (plus 1).text ∧
      listed [seven 0, plus 1, seven 2] ≠ listed [seven 0, plus 2, seven 4] := by
  intro seven plus
  have hseven : (seven 0).Regular := iff_of_true rfl rfl
  have hplus : (plus 1).Regular := iff_of_false nofun nofun
  have hclose : lex (.ofString "7+7") = .ok [seven 0, plus 1, seven 2] := by
    with_unfolding_all rfl
  have hspread : lex (.ofString "7 + 7") = .ok [seven 0, plus 2, seven 4] := by
    with_unfolding_all rfl
  refine ⟨hseven, hplus, hclose, hspread, fun h => ?_, fun h => ?_⟩
  · exact absurd ((listed_eq_iff.1 _ _ hseven hplus).mp h) (by decide)
  · exact absurd ((listed_eq_iff.2 _ _ _ _ hclose hspread).1.mp h) (by decide)

end ArithTree
