import ArithTree.Diagnostic.Basic
import ArithTree.Proofs.ScanWords

/-!
# What scanning finds

A text can be scanned if each of its code points has a place in an expression
and each of its runs of digits fits in 64 bits. Its tokens then list what is
in it: a token for every sign and one for every run, in order, side by side
with nothing but separators between. A text that cannot be scanned gives one
error, and it is about the first thing that is wrong with the text.

The words of a text put all of this together. What can be said of two texts
can be said of the one after the other if no run goes over from one to the
other, and this is what the seam is for: a run of the whole is a run of one
part (`IsRun.split`), and the other way round. A scan then takes as many words
as there are, `Parts` says what it has of them, and what blocks it is the
first offence because the words before it have none.
-/

namespace ArithTree

/-- The span of `n` bytes from an offset on. -/
def Span.stretch (o n : Nat) : Span := ⟨o, o + n⟩

def Span.covers (s : Span) (i : Nat) : Bool := s.start ≤ i && i < s.stop

theorem Span.covers_stretch (o n i : Nat) :
    (Span.stretch o n).covers i = true ↔ o ≤ i ∧ i < o + n := by
  rw [covers, Bool.and_eq_true, decide_eq_true_eq, decide_eq_true_eq]
  show (o : Int) ≤ i ∧ (i : Int) < o + n ↔ _
  omega

namespace Text

/-- The number of bytes. -/
def size (t : Text) : Nat := t.utf8.length

@[simp] theorem size_append (a b : Text) : size (a ++ b) = a.size + b.size := by
  rw [size, utf8_append, List.length_append]
  rfl

theorem size_eq_length {t : Text} (h : ∀ c ∈ t, c.isForeign = false) : t.size = t.length := by
  rw [size, utf8_eq_map_lead h, List.length_map]

theorem size_pos {t : Text} (h : t ≠ []) : 0 < t.size := by
  obtain ⟨c, rest, rfl⟩ := List.exists_cons_of_ne_nil h
  obtain ⟨bytes, hbytes⟩ := c.utf8_eq_lead_cons
  rw [size, utf8_cons, hbytes]
  exact Nat.succ_pos _

theorem seam_append_left {a b t : Text} (hb : b ≠ []) : Seam (a ++ b) t ↔ Seam b t := by
  rw [Seam, List.getLast?_append, List.getLast?_eq_some_getLast hb]
  simp only [Seam, List.getLast?_eq_some_getLast hb, Option.some_or]

theorem seam_append_right {t a b : Text} (ha : a ≠ []) : Seam t (a ++ b) ↔ Seam t a := by
  obtain ⟨c, a, rfl⟩ := List.exists_cons_of_ne_nil ha
  exact Iff.rfl

theorem seam_nil_left (t : Text) : Seam [] t := by
  intro c hc
  cases hc

theorem seam_nil_right (t : Text) : Seam t [] := by
  intro c _ d hd
  cases hd

theorem Seam.of_append_right {t a b : Text} (h : Seam t (a ++ b)) : Seam t a := by
  by_cases ha : a = []
  · rw [ha]
    exact seam_nil_right t
  · exact (seam_append_right ha).mp h

theorem Seam.of_append_left {a b t : Text} (h : Seam (a ++ b) t) : Seam b t := by
  by_cases hb : b = []
  · rw [hb]
    exact seam_nil_left t
  · exact (seam_append_left hb).mp h

/-- A seam goes through digits on both sides nowhere. -/
theorem Seam.nil_of_digits {a b : Text} (h : Seam a b) (ha : a ≠ [])
    (hda : ∀ c ∈ a, c.isDigit = true) (hdb : ∀ c ∈ b, c.isDigit = true) : b = [] := by
  cases b with
  | nil => rfl
  | cons d b =>
      have hd := head_of_seam ha hda h d rfl
      rw [hdb d List.mem_cons_self] at hd
      cases hd

/-- A run of digits that is as long as can be, with what is in front of it and
what is behind it. -/
structure IsRun (before run after : Text) : Prop where
  nonempty : run ≠ []
  digits : ∀ c ∈ run, c.isDigit = true
  left : Seam before run
  right : Seam run after

theorem IsRun.size_eq {before run after : Text} (h : IsRun before run after) :
    run.size = run.length :=
  size_eq_length fun c hc => CodePoint.not_foreign_of_digit (h.digits c hc)

theorem IsRun.append_right {before run after t : Text} (h : IsRun before run after)
    (hseam : Seam (before ++ (run ++ after)) t) : IsRun before run (after ++ t) := by
  refine { h with right := ?_ }
  by_cases hafter : after = []
  · subst hafter
    rw [List.append_nil] at hseam
    exact hseam.of_append_left
  · exact (seam_append_right hafter).mpr h.right

theorem IsRun.append_left {t before run after : Text} (h : IsRun before run after)
    (hseam : Seam t (before ++ (run ++ after))) : IsRun (t ++ before) run after := by
  refine { h with left := ?_ }
  by_cases hbefore : before = []
  · subst hbefore
    rw [List.append_nil]
    exact (seam_append_right h.nonempty).mp hseam
  · exact (seam_append_left hbefore).mpr h.left

/-- A code point of two texts is in the one or in the other. -/
theorem split_char {a b before after : Text} {c : CodePoint}
    (h : a ++ b = before ++ c :: after) :
    (∃ a', a = before ++ c :: a') ∨ ∃ b', before = a ++ b' ∧ b = b' ++ c :: after := by
  rcases List.append_eq_append_iff.mp h with ⟨b', hbefore, hb⟩ | ⟨a', ha, hafter⟩
  · exact .inr ⟨b', hbefore, hb⟩
  · cases a' with
    | nil => exact .inr ⟨[], by simpa using ha.symm, hafter.symm⟩
    | cons d a' =>
        obtain ⟨rfl, _⟩ := List.cons.inj hafter
        exact .inl ⟨a', ha⟩

/-- A run of two texts is in the one or in the other, if it does not go over. -/
theorem IsRun.split {a b before run after : Text} (h : IsRun before run after)
    (hseam : Seam a b) (heq : a ++ b = before ++ (run ++ after)) :
    (∃ a', a = before ++ (run ++ a') ∧ IsRun before run a') ∨
      ∃ b', before = a ++ b' ∧ b = b' ++ (run ++ after) ∧ IsRun b' run after := by
  rcases List.append_eq_append_iff.mp heq with ⟨b', rfl, hb⟩ | ⟨x, ha, hrest⟩
  · exact .inr ⟨b', rfl, hb, { h with left := h.left.of_append_left }⟩
  · rcases List.append_eq_append_iff.mp hrest with ⟨a', rfl, rfl⟩ | ⟨y, rfl, hb⟩
    · exact .inl ⟨a', ha, { h with right := h.right.of_append_right }⟩
    · by_cases hx : x = []
      · subst hx
        rw [List.append_nil] at ha
        exact .inr ⟨[], by simpa using ha.symm, hb, { h with left := seam_nil_left _ }⟩
      · have hxy : Seam x y := by
          rw [ha, hb] at hseam
          exact hseam.of_append_left.of_append_right
        have hy : y = [] := hxy.nil_of_digits hx
          (fun c hc => h.digits c (List.mem_append_left y hc))
          fun c hc => h.digits c (List.mem_append_right x hc)
        subst hy
        rw [List.append_nil] at h ⊢
        exact .inl ⟨[], by simpa using ha, { h with right := seam_nil_right x }⟩

/-- In a text of digits the run is all of it. -/
theorem IsRun.of_digits {before run after : Text} (h : IsRun before run after)
    (hdigits : ∀ c ∈ before ++ (run ++ after), c.isDigit = true) :
    before = [] ∧ after = [] := by
  have hafter : after = [] := h.right.nil_of_digits h.nonempty h.digits fun c hc =>
    hdigits c (by simp [hc])
  refine ⟨Decidable.byContradiction fun hbefore => h.nonempty ?_, hafter⟩
  exact h.left.nil_of_digits hbefore (fun c hc => hdigits c (by simp [hc])) h.digits

theorem IsRun.exists_digit {before run after t : Text} (h : IsRun before run after)
    (ht : t = before ++ (run ++ after)) : ∃ c ∈ t, c.isDigit = true := by
  obtain ⟨c, hc⟩ := List.exists_mem_of_ne_nil run h.nonempty
  exact ⟨c, by simp [ht, hc], h.digits c hc⟩

/-- A code point that is no digit is no run. -/
theorem IsRun.ne_singleton {before run after : Text} {c : CodePoint}
    (h : IsRun before run after) (hc : c.isDigit = false) : [c] ≠ before ++ (run ++ after) := by
  intro ht
  obtain ⟨d, hd, hdigit⟩ := h.exists_digit ht
  rw [List.mem_singleton.mp hd, hc] at hdigit
  cases hdigit

/-- Nothing in the text is wrong. -/
structure Clean (t : Text) : Prop where
  allowed : ∀ c ∈ t, c.isForeign = false
  fits : ∀ before run after : Text, t = before ++ (run ++ after) → IsRun before run after →
    run.decimal < UInt64.size

theorem Clean.nil : Clean [] where
  allowed c hc := by cases hc
  fits before run after ht hrun := by simp [hrun.nonempty] at ht

theorem Clean.append {a b : Text} (ha : Clean a) (hb : Clean b) (hseam : Seam a b) :
    Clean (a ++ b) where
  allowed c hc := by
    rcases List.mem_append.mp hc with h | h
    · exact ha.allowed c h
    · exact hb.allowed c h
  fits before run after ht hrun := by
    rcases hrun.split hseam ht with ⟨a', ha', hrun'⟩ | ⟨b', _, hb', hrun'⟩
    · exact ha.fits before run a' ha' hrun'
    · exact hb.fits b' run after hb' hrun'

theorem Word.clean {w : Text} {tokens : Nat → List Token} (h : Word w tokens) : Clean w := by
  cases h with
  | separator hc =>
      refine ⟨by simpa using CodePoint.not_foreign_of_separator hc, ?_⟩
      intro before run after ht hrun
      exact absurd ht (hrun.ne_singleton (CodePoint.not_digit_of_separator hc))
  | sign hk =>
      refine ⟨by simpa using CodePoint.not_foreign_of_kind hk, ?_⟩
      intro before run after ht hrun
      exact absurd ht (hrun.ne_singleton (CodePoint.not_digit_of_kind hk))
  | number hne hdigits hfits =>
      refine ⟨fun c hc => CodePoint.not_foreign_of_digit (hdigits c hc), ?_⟩
      intro before run after ht hrun
      rw [ht] at hdigits
      obtain ⟨rfl, rfl⟩ := hrun.of_digits hdigits
      simpa [ht] using hfits

end Text

/-! ## Listings -/

open Text

/-- The tokens that a text has to give if it begins at an offset. -/
inductive Names (o : Nat) (t : Text) : Token → Prop where
  | sign {before after : Text} {c : CodePoint} {k : Token.Kind}
      (ht : t = before ++ c :: after) (hk : c.kind? = some k) :
      Names o t { kind := k, span := .stretch (o + before.size) 1 }
  | number {before run after : Text} (ht : t = before ++ (run ++ after))
      (hrun : IsRun before run after) :
      Names o t { kind := .number, span := .stretch (o + before.size) run.size,
                  value := some run.decimal }

/-- The tokens are those of the text, in order, and they leave out nothing but
the separators. -/
structure Listing (o : Nat) (t : Text) (tokens : List Token) : Prop where
  named : ∀ k, k ∈ tokens ↔ Names o t k
  nonempty : ∀ k ∈ tokens, k.span.start < k.span.stop
  within : ∀ k ∈ tokens, o ≤ k.span.start ∧ k.span.stop ≤ o + t.size
  ordered : tokens.Pairwise fun j k => j.span.stop ≤ k.span.start
  covered : ∀ (before after : Text) (c : CodePoint), t = before ++ c :: after →
    tokens.countP (·.span.covers (o + before.size)) = if c.isSeparator then 0 else 1

theorem names_append {o : Nat} {a b : Text} (hseam : Seam a b) (k : Token) :
    Names o (a ++ b) k ↔ Names o a k ∨ Names (o + a.size) b k := by
  constructor
  · intro h
    cases h with
    | sign ht hk =>
        rcases split_char ht with ⟨a', ha⟩ | ⟨b', rfl, hb⟩
        · exact .inl (.sign ha hk)
        · rw [size_append, ← Nat.add_assoc]
          exact .inr (.sign hb hk)
    | number ht hrun =>
        rcases hrun.split hseam ht with ⟨a', ha, hrun'⟩ | ⟨b', rfl, hb, hrun'⟩
        · exact .inl (.number ha hrun')
        · rw [size_append, ← Nat.add_assoc]
          exact .inr (.number hb hrun')
  · rintro (h | h)
    · cases h with
      | @sign before after c k ht hk =>
          exact .sign (by rw [ht, List.append_assoc, List.cons_append]) hk
      | @number before run after ht hrun =>
          refine .number ?_ (hrun.append_right (ht ▸ hseam))
          rw [ht, List.append_assoc, List.append_assoc]
    · cases h with
      | @sign before after c k ht hk =>
          rw [Nat.add_assoc, ← size_append]
          exact .sign (by rw [ht, List.append_assoc]) hk
      | @number before run after ht hrun =>
          rw [Nat.add_assoc, ← size_append]
          refine .number ?_ (hrun.append_left (ht ▸ hseam))
          rw [ht, List.append_assoc]

/-- A token does not cover what is outside of it. -/
theorem countP_covers_eq_zero {tokens : List Token} {i : Nat}
    (h : ∀ k ∈ tokens, k.span.stop ≤ i ∨ (i : Int) < k.span.start) :
    tokens.countP (·.span.covers i) = 0 := by
  refine List.countP_eq_zero.mpr fun k hk hcovers => ?_
  rw [Span.covers, Bool.and_eq_true, decide_eq_true_eq, decide_eq_true_eq] at hcovers
  have := h k hk
  omega

theorem Listing.append {o : Nat} {a b : Text} {ts us : List Token} (ha : Listing o a ts)
    (hb : Listing (o + a.size) b us) (hseam : Seam a b) : Listing o (a ++ b) (ts ++ us) where
  named k := by rw [List.mem_append, ha.named, hb.named, names_append hseam]
  nonempty k hk := by
    rcases List.mem_append.mp hk with h | h
    · exact ha.nonempty k h
    · exact hb.nonempty k h
  within k hk := by
    rw [size_append]
    rcases List.mem_append.mp hk with h | h
    · have := ha.within k h
      omega
    · have := hb.within k h
      omega
  ordered := by
    refine List.pairwise_append.mpr ⟨ha.ordered, hb.ordered, fun j hj k hk => ?_⟩
    have hleft := ha.within j hj
    have hright := hb.within k hk
    omega
  covered before after c ht := by
    rw [List.countP_append]
    rcases split_char ht with ⟨a', ha'⟩ | ⟨b', rfl, hb'⟩
    · have hless : before.size < a.size := by
        rw [ha', size_append]
        have := size_pos (List.cons_ne_nil c a')
        omega
      rw [ha.covered before a' c ha', countP_covers_eq_zero, Nat.add_zero]
      intro k hk
      have := hb.within k hk
      omega
    · rw [size_append, ← Nat.add_assoc, hb.covered b' after c hb', countP_covers_eq_zero,
        Nat.zero_add]
      intro k hk
      have := ha.within k hk
      omega

theorem split_singleton {c d : CodePoint} {before after : Text}
    (h : [c] = before ++ d :: after) : before = [] ∧ d = c := by
  cases before with
  | nil => exact ⟨rfl, (List.cons.inj h).1.symm⟩
  | cons e before => simp at h

/-- A text that is one token, and all of it is covered. -/
theorem Listing.single {o : Nat} {t : Text} {k : Token} (hnamed : ∀ j, Names o t j ↔ j = k)
    (ht : t ≠ []) (hspan : k.span = .stretch o t.size)
    (hseparator : ∀ c ∈ t, c.isSeparator = false) : Listing o t [k] where
  named j := by rw [List.mem_singleton, hnamed]
  nonempty j hj := by
    have hpos := size_pos ht
    rw [List.mem_singleton.mp hj, hspan]
    show (o : Int) < o + t.size
    omega
  within j hj := by
    rw [List.mem_singleton.mp hj, hspan]
    exact ⟨Int.le_refl _, Int.le_refl _⟩
  ordered := List.pairwise_singleton _ _
  covered before after c hsplit := by
    have hc : c ∈ t := by simp [hsplit]
    have hpos := size_pos (List.cons_ne_nil c after)
    have hcovers : k.span.covers (o + before.size) = true := by
      rw [hspan, Span.covers_stretch, hsplit, size_append]
      omega
    rw [List.countP_singleton, if_pos hcovers, hseparator c hc]
    rfl

theorem Text.Word.listing {w : Text} {tokens : Nat → List Token} (h : Word w tokens)
    (o : Nat) : Listing o w (tokens o) := by
  cases h with
  | @separator c hc =>
      have hnone : ∀ k, ¬ Names o [c] k := by
        intro k hk
        cases hk with
        | sign ht hk =>
            obtain ⟨_, rfl⟩ := split_singleton ht
            rw [CodePoint.not_separator_of_kind hk] at hc
            cases hc
        | number ht hrun =>
            exact hrun.ne_singleton (CodePoint.not_digit_of_separator hc) ht
      refine ⟨fun k => by simp [hnone], by simp, by simp, .nil, ?_⟩
      intro before after d ht
      obtain ⟨_, rfl⟩ := split_singleton ht
      rw [hc]
      rfl
  | @sign c k hk =>
      have hsize : size [c] = 1 := size_eq_length (by
        simpa using CodePoint.not_foreign_of_kind hk)
      refine .single (fun j => ⟨fun h => ?_, ?_⟩) (List.cons_ne_nil c []) (by rw [hsize]; rfl)
        (by simpa using CodePoint.not_separator_of_kind hk)
      · cases h with
        | sign ht hk' =>
            obtain ⟨rfl, rfl⟩ := split_singleton ht
            cases hk.symm.trans hk'
            rfl
        | number ht hrun =>
            exact absurd ht (hrun.ne_singleton (CodePoint.not_digit_of_kind hk))
      · rintro rfl
        exact @Names.sign o [c] [] [] c k rfl hk
  | number hne hdigits hfits =>
      have hsize : w.size = w.length := size_eq_length fun c hc =>
        CodePoint.not_foreign_of_digit (hdigits c hc)
      refine .single (fun j => ⟨fun h => ?_, ?_⟩) hne (by rw [hsize]; rfl)
        fun c hc => CodePoint.not_separator_of_digit (hdigits c hc)
      · cases h with
        | @sign before after c k ht hk =>
            have hdigit := hdigits c (by simp [ht])
            rw [CodePoint.not_digit_of_kind hk] at hdigit
            cases hdigit
        | @number before run after ht hrun =>
            rw [ht] at hdigits
            obtain ⟨rfl, rfl⟩ := hrun.of_digits hdigits
            rw [List.nil_append, List.append_nil] at ht
            rw [← ht, hsize]
            rfl
      · rintro rfl
        rw [← hsize]
        exact @Names.number o w [] w [] (by simp)
          ⟨hne, hdigits, seam_nil_left w, seam_nil_right w⟩

/-- A scan from an offset on has passed the first text, and the second is what
blocks it. -/
structure Parts (o : Nat) (a b : Text) (s : Scan) : Prop where
  seam : Seam a b
  clean : a.Clean
  listing : Listing o a s.tokens
  rest : match s.error? with
    | none => b = []
    | some e => ∃ error, Blocked b error ∧ e = error (o + a.size)

theorem Listing.nil (o : Nat) : Listing o [] [] where
  named k := by
    constructor
    · intro h
      cases h
    · intro h
      cases h with
      | sign ht => simp at ht
      | number ht hrun => simp [hrun.nonempty] at ht
  nonempty k hk := by cases hk
  within k hk := by cases hk
  ordered := .nil
  covered before after c ht := by simp at ht

theorem Parts.prepend {o : Nat} {w a b : Text} {s : Scan} {tokens : Nat → List Token}
    (hw : Word w tokens) (hseam : Seam w (a ++ b)) (h : Parts (o + w.size) a b s) :
    Parts o (w ++ a) b (s.prepend (tokens o)) where
  seam := by
    by_cases ha : a = []
    · subst ha
      rw [List.append_nil]
      exact hseam
    · exact (seam_append_left ha).mpr h.seam
  clean := hw.clean.append h.clean hseam.of_append_right
  listing := (hw.listing o).append h.listing hseam.of_append_right
  rest := by
    rw [size_append, ← Nat.add_assoc]
    exact h.rest

/-- A scan passes all words that there are. -/
theorem scanFrom_parts (t : Text) :
    ∀ o, ∃ a b : Text, t = a ++ b ∧ Parts o a b (scanFrom o t) := by
  induction t using Text.words with
  | nil =>
      intro o
      refine ⟨[], [], rfl, ?_⟩
      rw [scanFrom_nil]
      exact ⟨seam_nil_left [], .nil, .nil o, rfl⟩
  | @word w t tokens hw hseam ih =>
      intro o
      obtain ⟨a, b, rfl, hparts⟩ := ih (o + w.size)
      refine ⟨w ++ a, b, (List.append_assoc w a b).symm, ?_⟩
      rw [scanFrom_word o hw hseam, ← size_eq_length hw.clean.allowed]
      exact hparts.prepend hw hseam
  | @blocked t error hblocked =>
      intro o
      obtain ⟨c, hscan⟩ := scanFrom_blocked o hblocked
      refine ⟨[], t, rfl, ?_⟩
      rw [hscan]
      exact ⟨seam_nil_left t, .nil, .nil o, error, hblocked, rfl⟩

/-- The errors that a text gives reason for if it begins at an offset, with
what they are about. -/
inductive Offends (o : Nat) (t : Text) : LexError → Span → Prop where
  | foreign {before after : Text} {c : CodePoint} (ht : t = before ++ c :: after)
      (hc : c.isForeign = true) :
      Offends o t (.invalidChar c (o + before.size)) (.stretch (o + before.size) 1)
  | overflow {before run after : Text} (ht : t = before ++ (run ++ after))
      (hrun : IsRun before run after) (hlarge : UInt64.size ≤ run.decimal) :
      Offends o t (.overflow run.display (.stretch (o + before.size) run.size))
        (.stretch (o + before.size) run.size)

theorem Offends.span {o : Nat} {t : Text} {e : LexError} {span : Span}
    (h : Offends o t e span) : (Diagnostic.ofLexError e).span? = some span := by
  cases h with
  | foreign ht hc => rfl
  | overflow ht hrun hlarge => rfl

theorem Offends.not_clean {o : Nat} {t : Text} {e : LexError} {span : Span}
    (h : Offends o t e span) : ¬ t.Clean := by
  intro hclean
  cases h with
  | @foreign before after c ht hc =>
      have hallowed := hclean.allowed c (by simp [ht])
      rw [hc] at hallowed
      cases hallowed
  | overflow ht hrun hlarge =>
      have hfits := hclean.fits _ _ _ ht hrun
      omega

theorem Offends.split {o : Nat} {a b : Text} {e : LexError} {span : Span}
    (h : Offends o (a ++ b) e span) (hseam : Seam a b) :
    Offends o a e span ∨ Offends (o + a.size) b e span := by
  cases h with
  | foreign ht hc =>
      rcases split_char ht with ⟨a', ha⟩ | ⟨b', rfl, hb⟩
      · exact .inl (.foreign ha hc)
      · rw [size_append, ← Nat.add_assoc]
        exact .inr (.foreign hb hc)
  | overflow ht hrun hlarge =>
      rcases hrun.split hseam ht with ⟨a', ha, hrun'⟩ | ⟨b', rfl, hb, hrun'⟩
      · exact .inl (.overflow ha hrun' hlarge)
      · rw [size_append, ← Nat.add_assoc]
        exact .inr (.overflow hb hrun' hlarge)

/-- An offence comes later, or it is what blocks the text. -/
theorem Offends.later_or_blocked {o : Nat} {t : Text} {e : LexError} {span : Span}
    (h : Offends o t e span) :
    (o : Int) < span.start ∨ ∃ error, Blocked t error ∧ e = error o := by
  have later {before : Text} (hne : before ≠ []) (n : Nat) :
      (o : Int) < (Span.stretch (o + before.size) n).start := by
    have hpos := size_pos hne
    show (o : Int) < ((o + before.size : Nat) : Int)
    omega
  cases h with
  | @foreign before after c ht hc =>
      by_cases hbefore : before = []
      · subst hbefore
        rw [ht]
        exact .inr ⟨_, .foreign hc, rfl⟩
      · exact .inl (later hbefore 1)
  | @overflow before run after ht hrun hlarge =>
      by_cases hbefore : before = []
      · subst hbefore
        rw [ht, List.nil_append, hrun.size_eq]
        exact .inr ⟨_, .overflow hrun.nonempty hrun.digits hrun.right hlarge, rfl⟩
      · exact .inl (later hbefore _)

/-- What blocks a text behind a seam is an offence. -/
theorem Offends.of_blocked {a b : Text} {error : Nat → LexError} (o : Nat)
    (h : Blocked b error) (hseam : Seam a b) :
    ∃ span, span.start = ((o + a.size : Nat) : Int) ∧
      Offends o (a ++ b) (error (o + a.size)) span := by
  cases h with
  | foreign hc => exact ⟨_, rfl, .foreign rfl hc⟩
  | @overflow run t hne hdigits hright hlarge =>
      have hrun : IsRun a run t := ⟨hne, hdigits, (seam_append_right hne).mp hseam, hright⟩
      rw [← hrun.size_eq]
      exact ⟨_, rfl, .overflow rfl hrun hlarge⟩

/-- A run at the beginning of a text is all digits that the text begins with. -/
theorem Text.IsRun.unique {run after run' after' : Text} (h : IsRun [] run after)
    (h' : IsRun [] run' after') (heq : run ++ after = run' ++ after') : run = run' := by
  rcases h'.split h.right heq with ⟨a', ha, hrun⟩ | ⟨b', hb, _⟩
  · have ha' : a' = [] := hrun.right.nil_of_digits h'.nonempty h'.digits fun c hc =>
      h.digits c (by simp [ha, hc])
    simpa [ha'] using ha
  · exact absurd (List.append_eq_nil_iff.mp hb.symm).1 h.nonempty

theorem not_foreign_of_run {c : CodePoint} {run t t' : Text} (hne : run ≠ [])
    (hdigits : ∀ d ∈ run, d.isDigit = true) (heq : c :: t = run ++ t') :
    c.isForeign = false := by
  obtain ⟨d, run, rfl⟩ := List.exists_cons_of_ne_nil hne
  obtain ⟨rfl, _⟩ := List.cons.inj heq
  exact CodePoint.not_foreign_of_digit (hdigits c List.mem_cons_self)

theorem Text.Blocked.unique {t t' : Text} {error error' : Nat → LexError}
    (h : Blocked t error) (h' : Blocked t' error') (heq : t = t') : error = error' := by
  cases h with
  | foreign hc =>
      cases h' with
      | foreign hc' =>
          obtain ⟨rfl, _⟩ := List.cons.inj heq
          rfl
      | overflow hne hdigits _ _ =>
          rw [not_foreign_of_run hne hdigits heq] at hc
          cases hc
  | @overflow run t hne hdigits hright hlarge =>
      cases h' with
      | foreign hc =>
          rw [not_foreign_of_run hne hdigits heq.symm] at hc
          cases hc
      | @overflow run' t' hne' hdigits' hright' hlarge' =>
          have hrun : IsRun [] run t := ⟨hne, hdigits, seam_nil_left run, hright⟩
          have hrun' : IsRun [] run' t' := ⟨hne', hdigits', seam_nil_left run', hright'⟩
          rw [hrun.unique hrun' heq]

/-- What blocks a scan is the first offence. -/
theorem Parts.first {o : Nat} {a b : Text} {s : Scan} {e : LexError}
    (h : Parts o a b s) (herror : s.error? = some e) :
    ∃ span, Offends o (a ++ b) e span ∧
      ∀ e' span', Offends o (a ++ b) e' span' → span.start < span'.start ∨ e' = e := by
  have hrest := h.rest
  rw [herror] at hrest
  obtain ⟨error, hblocked, rfl⟩ := hrest
  obtain ⟨span, hstart, hoffends⟩ := Offends.of_blocked o hblocked h.seam
  refine ⟨span, hoffends, fun e' span' h' => ?_⟩
  rcases h'.split h.seam with hleft | hright
  · exact absurd h.clean hleft.not_clean
  · rcases hright.later_or_blocked with hlater | ⟨error', hblocked', rfl⟩
    · rw [hstart]
      exact .inl hlater
    · rw [hblocked'.unique hblocked rfl]
      exact .inr rfl

theorem lex_eq (source : Text) :
    lex source = match (scanFrom 0 source).error? with
      | some e => .error e
      | none => .ok (scanFrom 0 source).tokens := rfl

theorem listing_of_lex {source : Text} {tokens : List Token} (h : lex source = .ok tokens) :
    source.Clean ∧ Listing 0 source tokens := by
  obtain ⟨a, b, rfl, hparts⟩ := scanFrom_parts source 0
  rw [lex_eq] at h
  cases herror : (scanFrom 0 (a ++ b)).error? with
  | none =>
      have hrest := hparts.rest
      rw [herror] at h hrest
      cases h
      subst hrest
      rw [List.append_nil] at hparts ⊢
      exact ⟨hparts.clean, hparts.listing⟩
  | some e =>
      rw [herror] at h
      cases h

theorem first_of_lex {source : Text} {e : LexError} (h : lex source = .error e) :
    ∃ span, Offends 0 source e span ∧
      ∀ e' span', Offends 0 source e' span' → span.start < span'.start ∨ e' = e := by
  obtain ⟨a, b, rfl, hparts⟩ := scanFrom_parts source 0
  rw [lex_eq] at h
  cases herror : (scanFrom 0 (a ++ b)).error? with
  | none =>
      rw [herror] at h
      cases h
  | some e' =>
      rw [herror] at h
      cases h
      exact hparts.first herror

/-- A text can be scanned if nothing in it is wrong, and its tokens are a
listing of it; else the error is about the first thing that is wrong. -/
theorem lex_iff_listing (source : Text) :
    ((∃ tokens, lex source = .ok tokens) ↔ source.Clean) ∧
      (∀ tokens, lex source = .ok tokens → Listing 0 source tokens) ∧
      ∀ e, lex source = .error e →
        ∃ span, Offends 0 source e span ∧ (Diagnostic.ofLexError e).span? = some span ∧
          ∀ e' span', Offends 0 source e' span' → span.start < span'.start ∨ e' = e := by
  refine ⟨⟨fun ⟨_, h⟩ => (listing_of_lex h).1, fun hclean => ?_⟩,
    fun _ h => (listing_of_lex h).2, fun e h => ?_⟩
  · cases hlex : lex source with
    | ok tokens => exact ⟨tokens, rfl⟩
    | error e =>
        obtain ⟨span, hoffends, _⟩ := first_of_lex hlex
        exact absurd hclean hoffends.not_clean
  · obtain ⟨span, hoffends, hfirst⟩ := first_of_lex h
    exact ⟨span, hoffends, hoffends.span, hfirst⟩

end ArithTree
