import Mathlib.Data.List.TakeWhile
import TokenTree.Segment.Basic

/-!
# Segments of a text that goes on

The class of the first segment is that of the first character. Its characters are settled unless the
segment may extend (`munch_append_of_settled`), and two runs of the same kind make one
(`munch_run_append`).
-/

namespace TokenTree

/-- Atoms are in no class of characters that goes before or behind them. -/
theorem Atom.char_class {c : Char} {a : Atom} (h : ofChar? c = some a) :
    c.isDigit = false ∧ Text.isBlank c = false ∧ c ≠ '\n' ∧ c ≠ '\r' := by
  obtain rfl := char_of_ofChar? h
  cases a with
  | opening d => cases d <;> decide
  | closing d => cases d <;> decide
  | quote q => cases q <;> decide
  | _ => decide

/-- No digit is white space. -/
theorem Text.isDigit_of_isBlank {c : Char} (h : isBlank c = true) : c.isDigit = false := by
  have hmem : c.toNat ∈ blanks := by simpa [isBlank] using h
  have houtside : ∀ n ∈ blanks, n < 48 ∨ 57 < n := by decide
  have hlt := houtside _ hmem
  simp only [Char.isDigit, Bool.and_eq_false_iff, decide_eq_false_iff_not, ge_iff_le,
    UInt32.le_iff_toNat_le]
  have hnat : c.val.toNat = c.toNat := rfl
  simp only [hnat]
  have hlow : ('0' : Char).val.toNat = 48 := rfl
  have hhigh : ('9' : Char).val.toNat = 57 := rfl
  omega

namespace SymbolSet

variable {symbols : SymbolSet}

/-! ## The classes of characters -/

theorem classOf_newline_iff {c : Char} : symbols.classOf c = .newline ↔ c = '\n' ∨ c = '\r' := by
  unfold classOf
  split
  · next a ha =>
    obtain ⟨-, -, hn, hr⟩ := Atom.char_class ha
    simp [hn, hr]
  · repeat' split
    all_goals simp_all

theorem classOf_digits_iff {c : Char} : symbols.classOf c = .run .digits ↔ c.isDigit = true := by
  unfold classOf
  split
  · next a ha => simp [(Atom.char_class ha).1]
  · split
    · next hnewline =>
      rcases hnewline with rfl | rfl <;> simp
    · repeat' split
      all_goals simp_all

theorem classOf_whitespace_iff {c : Char} :
    symbols.classOf c = .run .whitespace ↔ Text.isBlank c = true ∧ c ≠ '\n' ∧ c ≠ '\r' := by
  unfold classOf
  split
  · next a ha => simp [(Atom.char_class ha).2.1]
  · split
    · next hnewline => rcases hnewline with rfl | rfl <;> simp
    · next hnewline =>
      rw [not_or] at hnewline
      split
      · next hdigit =>
        have hblank : Text.isBlank c = false := by
          by_contra hblank
          rw [Text.isDigit_of_isBlank (by simpa using hblank)] at hdigit
          cases hdigit
        simp [hblank]
      · repeat' split
        all_goals simp_all

/-- Symbols are the configured characters that are no atoms. -/
theorem contains_of_classOf {c : Char} (h : symbols.classOf c = .symbol) :
    symbols.contains c = true ∧ Atom.ofChar? c = none := by
  unfold classOf at h
  split at h
  · cases h
  · next hatom =>
    refine ⟨?_, hatom⟩
    repeat' split at h
    all_goals simp_all

/-! ## The first segment -/

theorem munch_run {c : Char} {k : Run} (h : symbols.classOf c = .run k) (r : Text) :
    symbols.munch (c :: r) = some (.run k,
      c :: r.takeWhile (fun d => symbols.classOf d = .run k),
      r.dropWhile (fun d => symbols.classOf d = .run k)) := by
  simp only [munch, h]

theorem munch_crlf (r : Text) :
    symbols.munch ('\r' :: '\n' :: r) = some (.newline, ['\r', '\n'], r) := by
  have h : symbols.classOf '\r' = .newline := rfl
  simp only [munch, h]

theorem munch_newline {c : Char} {r : Text} (h : symbols.classOf c = .newline)
    (hne : ¬ (c = '\r' ∧ r.head? = some '\n')) :
    symbols.munch (c :: r) = some (.newline, [c], r) := by
  simp only [munch, h]
  split
  · next r' => exact absurd ⟨rfl, rfl⟩ hne
  · rfl

theorem munch_single {c : Char} (hrun : ∀ k, symbols.classOf c ≠ .run k)
    (hnewline : symbols.classOf c ≠ .newline) (r : Text) :
    symbols.munch (c :: r) = some (symbols.classOf c, [c], r) := by
  cases hc : symbols.classOf c with
  | run k => exact absurd hc (hrun k)
  | newline => exact absurd hc hnewline
  | atom a => simp only [munch, hc]
  | symbol => simp only [munch, hc]

/-- Every text that is not empty has a first segment, of the class of its first character. -/
theorem exists_munch (symbols : SymbolSet) (c : Char) (r : Text) :
    ∃ word after, symbols.munch (c :: r) = some (symbols.classOf c, word, after) := by
  by_cases hrun : ∃ k, symbols.classOf c = .run k
  · obtain ⟨k, hk⟩ := hrun
    exact ⟨_, _, by rw [munch_run hk, hk]⟩
  · by_cases hnewline : symbols.classOf c = .newline
    · by_cases hcrlf : c = '\r' ∧ r.head? = some '\n'
      · obtain ⟨rfl, hr⟩ := hcrlf
        obtain ⟨r, rfl⟩ := List.head?_eq_some_iff.1 hr
        exact ⟨_, _, by rw [munch_crlf, hnewline]⟩
      · exact ⟨_, _, by rw [munch_newline hnewline hcrlf, hnewline]⟩
    · exact ⟨_, _, munch_single (fun k hk => hrun ⟨k, hk⟩) hnewline r⟩

theorem munch_cls {c : Char} {r word after : Text} {cls : CharClass}
    (h : symbols.munch (c :: r) = some (cls, word, after)) : cls = symbols.classOf c := by
  obtain ⟨word', after', h'⟩ := symbols.exists_munch c r
  rw [h'] at h
  cases h
  rfl

theorem char_of_classOf {c : Char} {a : Atom} (h : symbols.classOf c = .atom a) : a.char = c := by
  unfold classOf at h
  split at h
  · next b hb =>
    cases h
    exact Atom.char_of_ofChar? hb
  · repeat' split at h
    all_goals cases h

/-- An atom stands alone. -/
theorem munch_atom {t word after : Text} {a : Atom}
    (h : symbols.munch t = some (.atom a, word, after)) : word = [a.char] := by
  cases t with
  | nil => cases h
  | cons c r =>
    have hc : symbols.classOf c = .atom a := (munch_cls h).symm
    rw [munch_single (by simp [hc]) (by simp [hc]), hc] at h
    cases h
    rw [char_of_classOf hc]

/-- A symbol stands alone. -/
theorem munch_symbol {t word after : Text} (h : symbols.munch t = some (.symbol, word, after)) :
    ∃ c, word = [c] ∧ symbols.classOf c = .symbol := by
  cases t with
  | nil => cases h
  | cons c r =>
    have hc : symbols.classOf c = .symbol := (munch_cls h).symm
    rw [munch_single (by simp [hc]) (by simp [hc]), hc] at h
    cases h
    exact ⟨c, rfl, hc⟩

/-- A line break takes a line feed with it. -/
theorem munch_break {t word after : Text} (h : symbols.munch t = some (.newline, word, after)) :
    word = ['\n'] ∨ word = ['\r', '\n'] ∨ word = ['\r'] ∧ after.head? ≠ some '\n' := by
  cases t with
  | nil => cases h
  | cons c r =>
    have hc : symbols.classOf c = .newline := (munch_cls h).symm
    by_cases hcrlf : c = '\r' ∧ r.head? = some '\n'
    · obtain ⟨rfl, hr⟩ := hcrlf
      obtain ⟨r, rfl⟩ := List.head?_eq_some_iff.1 hr
      rw [munch_crlf] at h
      cases h
      exact Or.inr (Or.inl rfl)
    · rw [munch_newline hc hcrlf] at h
      cases h
      rcases classOf_newline_iff.1 hc with rfl | rfl
      · exact Or.inl rfl
      · exact Or.inr (Or.inr ⟨rfl, fun hr => hcrlf ⟨rfl, hr⟩⟩)

/-- A run goes on as far as its class does. -/
theorem munch_maximal {t word after : Text} {k : Run}
    (h : symbols.munch t = some (.run k, word, after)) :
    (∀ c ∈ word, symbols.classOf c = .run k) ∧ ∀ c ∈ after.head?, symbols.classOf c ≠ .run k := by
  cases t with
  | nil => cases h
  | cons c r =>
    have hc : symbols.classOf c = .run k := (munch_cls h).symm
    rw [munch_run hc] at h
    cases h
    refine ⟨List.forall_mem_cons.2 ⟨hc, fun d hd => ?_⟩, fun d hd => ?_⟩
    · simpa using List.mem_takeWhile_imp hd
    · have hstop := List.head?_dropWhile_not (fun d => decide (symbols.classOf d = .run k)) r
      rw [Option.mem_def.1 hd] at hstop
      simpa using hstop

/-- A line break that a line feed would join is told by its last character. -/
theorem lone_return {t word after : Text} {cls : CharClass}
    (h : symbols.munch t = some (cls, word, after)) :
    (cls == .newline && word.getLast? == some '\r') = (word == ['\r']) := by
  have hreturn : symbols.classOf '\r' = .newline := rfl
  cases t with
  | nil => cases h
  | cons c r =>
    by_cases hnewline : symbols.classOf c = .newline
    · by_cases hcrlf : c = '\r' ∧ r.head? = some '\n'
      · obtain ⟨rfl, hr⟩ := hcrlf
        obtain ⟨r, rfl⟩ := List.head?_eq_some_iff.1 hr
        rw [munch_crlf] at h
        cases h
        rfl
      · rw [munch_newline hnewline hcrlf] at h
        cases h
        simp
    · -- no other segment starts with a carriage return
      have hc : c ≠ '\r' := by
        rintro rfl
        exact hnewline hreturn
      have hcls : cls ≠ .newline := by
        rw [munch_cls h]
        exact hnewline
      have hword : word ≠ ['\r'] := by
        rintro rfl
        have happend := munch_append symbols h
        exact hc (List.cons.inj happend).1
      rw [beq_eq_false_iff_ne.2 hcls, beq_eq_false_iff_ne.2 hword, Bool.false_and]

/-- The class of the first segment does not depend on the text to come. -/
theorem exists_munch_append {t word after : Text} {cls : CharClass}
    (h : symbols.munch t = some (cls, word, after)) (more : Text) :
    ∃ word' after', symbols.munch (t ++ more) = some (cls, word', after') := by
  cases t with
  | nil => cases h
  | cons c r =>
    obtain ⟨word', after', h'⟩ := symbols.exists_munch c (r ++ more)
    rw [munch_cls h]
    exact ⟨word', after', h'⟩

/-- A segment that may not extend is the same in every longer text. -/
theorem munch_append_of_settled {t word after : Text} {cls : CharClass}
    (h : symbols.munch t = some (cls, word, after)) (hs : mayExtend cls word after = false)
    (more : Text) : symbols.munch (t ++ more) = some (cls, word, after ++ more) := by
  cases t with
  | nil => cases h
  | cons c r =>
    rw [List.cons_append]
    by_cases hrun : ∃ k, symbols.classOf c = .run k
    · obtain ⟨k, hk⟩ := hrun
      rw [munch_run hk] at h ⊢
      cases h
      have hafter : (r.dropWhile fun d => decide (symbols.classOf d = .run k)) ≠ [] := by
        intro hnil
        simp [mayExtend, CharClass.isRun, hnil] at hs
      have hlen : (r.takeWhile fun d => decide (symbols.classOf d = .run k)).length ≠ r.length := by
        intro hlen
        have hsum := congrArg List.length
          (List.takeWhile_append_dropWhile (p := fun d => decide (symbols.classOf d = .run k))
            (l := r))
        rw [List.length_append, hlen] at hsum
        exact hafter (List.length_eq_zero_iff.1 (by omega))
      rw [List.takeWhile_append, if_neg hlen, List.dropWhile_append, if_neg (by simpa using hafter)]
    · by_cases hnewline : symbols.classOf c = .newline
      · by_cases hcrlf : c = '\r' ∧ r.head? = some '\n'
        · obtain ⟨rfl, hr⟩ := hcrlf
          obtain ⟨r, rfl⟩ := List.head?_eq_some_iff.1 hr
          rw [List.cons_append, munch_crlf] at *
          cases h
          rfl
        · rw [munch_newline hnewline hcrlf] at h
          cases h
          refine munch_newline hnewline ?_
          rintro ⟨rfl, hhead⟩
          cases after with
          | nil => simp [mayExtend] at hs
          | cons d r => exact hcrlf ⟨rfl, hhead⟩
      · rw [munch_single (fun k hk => hrun ⟨k, hk⟩) hnewline] at h ⊢
        cases h
        rfl

/-- A text that is one run is all of it. -/
theorem classOf_of_munch_run {t word : Text} {k : Run}
    (h : symbols.munch t = some (.run k, word, [])) : ∀ d ∈ t, symbols.classOf d = .run k := by
  cases t with
  | nil => exact nofun
  | cons c r =>
    have hc : symbols.classOf c = .run k := (munch_cls h).symm
    rw [munch_run hc] at h
    obtain ⟨-, hdrop⟩ := Prod.mk.inj (Prod.mk.inj (Option.some.inj h)).2
    refine List.forall_mem_cons.2 ⟨hc, ?_⟩
    intro d hd
    simpa using List.dropWhile_eq_nil_iff.1 hdrop d hd

/-- Characters of one run are a run, up to where one stands that is not of it. -/
theorem munch_of_all_append {word after : Text} {k : Run} (hne : word ≠ [])
    (h : ∀ d ∈ word, symbols.classOf d = .run k)
    (hafter : ∀ d ∈ after.head?, symbols.classOf d ≠ .run k) :
    symbols.munch (word ++ after) = some (.run k, word, after) := by
  cases word with
  | nil => exact absurd rfl hne
  | cons c r =>
    have hall : ∀ d ∈ r, decide (symbols.classOf d = .run k) = true := fun d hd =>
      decide_eq_true (h d (List.mem_cons_of_mem _ hd))
    have hstop : after.takeWhile (fun d => symbols.classOf d = .run k) = [] ∧
        after.dropWhile (fun d => symbols.classOf d = .run k) = after := by
      cases after with
      | nil => exact ⟨rfl, rfl⟩
      | cons d after =>
        have hd : ¬ decide (symbols.classOf d = .run k) = true := by simpa using hafter d rfl
        exact ⟨List.takeWhile_cons_of_neg hd, List.dropWhile_cons_of_neg hd⟩
    rw [List.cons_append, munch_run (h c List.mem_cons_self), List.takeWhile_append_of_pos hall,
      List.dropWhile_append_of_pos hall, hstop.1, hstop.2, List.append_nil]

theorem munch_of_all {t : Text} {k : Run} (hne : t ≠ [])
    (h : ∀ d ∈ t, symbols.classOf d = .run k) : symbols.munch t = some (.run k, t, []) := by
  have hwhole : symbols.munch (t ++ []) = _ := munch_of_all_append hne h (by simp)
  rwa [List.append_nil] at hwhole

/-- Two runs of one kind make a longer run. -/
theorem munch_run_append {s t word word' : Text} {k : Run}
    (hs : symbols.munch s = some (.run k, word, []))
    (ht : symbols.munch t = some (.run k, word', [])) :
    symbols.munch (s ++ t) = some (.run k, s ++ t, []) := by
  have hall := classOf_of_munch_run hs
  have hall' := classOf_of_munch_run ht
  refine munch_of_all ?_ (List.forall_mem_append.2 ⟨hall, hall'⟩)
  intro hnil
  rw [(List.append_eq_nil_iff.1 hnil).1] at hs
  cases hs

end SymbolSet

end TokenTree
