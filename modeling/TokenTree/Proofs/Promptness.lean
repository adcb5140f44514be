import TokenTree.Proofs.Accounting
import TokenTree.Proofs.Walk

/-!
# Nothing decided is held back

Text is held back only where it may be the beginning of a longer token: wherever the scanner waits
there is a text to come that makes one token without children of all that was held back and more
(`Session.exists_longer_leaf`). What that text is depends on why the scanner waits
(`Step.normal_completes`, `Step.inside_completes`): the rest of a comment start or of an operator,
one more character of a run, a digit, or the end of a string.
-/

namespace TokenTree

/-- The piece is a token without children. -/
def PieceKind.Childless (k : PieceKind) : Prop := (∃ kind, k = .leaf kind) ∨ k = .unterminated

/-- With some more text behind it, the text is the beginning of one piece that is all of it. -/
def Completes (config : Config) (mode : Mode) (rest : Text) : Prop :=
  ∃ more kind, more ≠ [] ∧ kind.Childless ∧
    Scans config true mode (rest ++ more) [⟨kind, rest ++ more⟩] ⟨.normal, [], none⟩

/-- A step that cuts off all of the text is the last one. -/
theorem scans_whole {config : Config} {mode : Mode} {text : Text} {kind : PieceKind}
    (h : step config true mode text = .piece kind text.length) :
    Scans config true mode text [⟨kind, text⟩] ⟨.normal, [], none⟩ := by
  have hscan : Scans config true mode text (⟨kind, text.take text.length⟩ :: []) _ :=
    .piece h (by rw [List.drop_length]; exact .done rfl)
  rw [List.take_length] at hscan
  exact hscan

theorem Completes.of_step {config : Config} {mode : Mode} {rest more : Text} {kind : PieceKind}
    (hne : more ≠ []) (hkind : kind.Childless)
    (h : step config true mode (rest ++ more) = .piece kind (rest ++ more).length) :
    Completes config mode rest := ⟨more, kind, hne, hkind, scans_whole h⟩

namespace Step

variable {config : Config} {symbols : SymbolSet} {rest word after : Text} {cls : CharClass}
  {mode : Mode} {run : Option Run}

/-! ## Comments and operators -/

/-- A comment that is nothing but its start. -/
theorem comment_whole (config : Config) (style : CommentStyle) (index : Nat) :
    ∃ kind : PieceKind, kind.Childless ∧
      step config true (style.mode index) style.start = .piece kind style.start.length := by
  obtain ⟨start, close⟩ := style
  cases close with
  | none =>
    refine ⟨.leaf (.comment .line), Or.inl ⟨_, rfl⟩, ?_⟩
    simp [CommentStyle.mode, step, lineComment, Text.seek_size]
  | some close =>
    simp only [CommentStyle.mode, step, blockComment, Text.seek_size]
    cases hend : Text.endOf? [] close with
    | none => exact ⟨.unterminated, Or.inr rfl, rfl⟩
    | some n =>
      have hle := (Text.length_le_of_endOfFrom? hend).2
      obtain rfl : n = 0 := by simpa using hle
      exact ⟨.leaf (.comment .block), Or.inl ⟨_, rfl⟩, rfl⟩

theorem comment_completes (h : config.commentAt rest false = .undecided) :
    Completes config .normal rest := by
  obtain ⟨style, hmem, more, hne, hmore⟩ := PrefixMatch.exists_begun_of_undecided h
  obtain ⟨index, other, hfound, hkey⟩ := PrefixMatch.find_whole hmem
  have hfound : config.commentAt (rest ++ more) true = .found index other := by
    rw [← hmore]
    exact hfound
  have hwhole : rest ++ more ≠ [] := by simp [hne]
  obtain ⟨kind, hkind, hstep⟩ := comment_whole config other index
  rw [hkey, hmore] at hstep
  exact ⟨more, kind, hne, hkind,
    .enter (Ruled.comment index other hwhole hfound).eq.symm (scans_whole hstep)⟩

theorem operator_completes (hc : config.commentAt rest false = .absent)
    (h : config.operatorAt rest false = .undecided) : Completes config .normal rest := by
  obtain ⟨operator, hmem, more, hne, hmore⟩ := PrefixMatch.exists_begun_of_undecided h
  obtain ⟨index, other, hfound, hkey⟩ := PrefixMatch.find_whole hmem
  have hfound : config.operatorAt (rest ++ more) true = .found index other := by
    rw [← hmore]
    exact hfound
  have hwhole : rest ++ more ≠ [] := by simp [hne]
  have hlen : other.length = (rest ++ more).length := by
    rw [← hmore]
    exact congrArg List.length hkey
  have hruled : Ruled config true (rest ++ more) _ :=
    .operator index other hwhole (PrefixMatch.find_append_absent hc more true) hfound
  rw [hlen] at hruled
  exact .of_step hne (Or.inl ⟨_, rfl⟩) hruled.eq.symm

/-! ## Runs, line breaks and numbers -/

/-- Where no comment and no operator starts, a segment that is all of the text makes the piece. -/
theorem segment_completes {more : Text} {kind : PieceKind} (hne : more ≠ [])
    (hc : config.commentAt rest false = .absent) (ho : config.operatorAt rest false = .absent)
    (hm : config.symbols.munch (rest ++ more) = some (cls, word, after))
    (hkind : kind.Childless)
    (h : segment config.symbols true cls word after = .piece kind (rest ++ more).length) :
    Completes config .normal rest := by
  have hruled : Ruled config true (rest ++ more) (segment config.symbols true cls word after) :=
    .segment cls word after (PrefixMatch.find_append_absent hc more true)
      (PrefixMatch.find_append_absent ho more true) hm rfl
  rw [h] at hruled
  exact .of_step hne hkind hruled.eq.symm

theorem segment_run (symbols : SymbolSet) (k : Run) (word : Text) :
    ∃ kind, segment symbols true (.run k) word [] = .piece (.leaf kind) word.length := by
  cases k with
  | digits => exact ⟨.integer, rfl⟩
  | text => exact ⟨.ident, rfl⟩
  | whitespace => exact ⟨.whitespace, rfl⟩

theorem mayExtend_completes (hc : config.commentAt rest false = .absent)
    (ho : config.operatorAt rest false = .absent)
    (hm : config.symbols.munch rest = some (cls, word, after))
    (h : SymbolSet.mayExtend cls word after = true) : Completes config .normal rest := by
  obtain ⟨hafter, hextends⟩ := Bool.and_eq_true_iff.1 h
  obtain rfl := List.isEmpty_iff.1 hafter
  have hword : rest = word := by simpa using SymbolSet.munch_append _ hm
  rcases Bool.or_eq_true_iff.1 hextends with hrun | hcr
  · cases cls with
    | run k =>
      -- one more character like those of the run
      have hall := SymbolSet.classOf_of_munch_run hm
      cases hrest : rest with
      | nil =>
        rw [hrest] at hm
        cases hm
      | cons c r =>
        rw [← hrest]
        have hmore : ∀ d ∈ rest ++ [c], config.symbols.classOf d = .run k := by
          refine List.forall_mem_append.2 ⟨hall, ?_⟩
          intro d hd
          obtain rfl := List.mem_singleton.1 hd
          exact hall d (by rw [hrest]; exact List.mem_cons_self)
        obtain ⟨kind, hkind⟩ := segment_run config.symbols k (rest ++ [c])
        exact segment_completes (List.cons_ne_nil c []) hc ho
          (SymbolSet.munch_of_all (by simp) hmore) (Or.inl ⟨kind, rfl⟩) hkind
    | _ => cases hrun
  · obtain rfl : word = ['\r'] := by simpa using hcr
    subst hword
    exact segment_completes (List.cons_ne_nil '\n' []) hc ho (SymbolSet.munch_crlf [])
      (Or.inl ⟨.whitespace, rfl⟩) rfl

/-- Where it is undecided whether a fraction follows, there are at most digits. -/
theorem classOf_of_fraction (h : fraction symbols false rest = .undecided) :
    ∀ d ∈ rest, symbols.classOf d = .run .digits := by
  cases hm : symbols.munch rest with
  | none =>
    cases rest with
    | nil => exact nofun
    | cons c r =>
      obtain ⟨word, after, hm'⟩ := symbols.exists_munch c r
      rw [hm] at hm'
      cases hm'
  | some found =>
    obtain ⟨cls, word, after⟩ := found
    rw [fraction, hm] at h
    cases cls with
    | run k =>
      cases k with
      | digits =>
        by_cases hextends : SymbolSet.mayExtend (.run .digits) word after = true
        · have hafter : after = [] := by
            simp only [SymbolSet.mayExtend, Bool.and_eq_true] at hextends
            exact List.isEmpty_iff.1 hextends.1
          subst hafter
          exact SymbolSet.classOf_of_munch_run hm
        · simp [hextends] at h
      | _ => cases h
    | _ => cases h

theorem classOf_zero (symbols : SymbolSet) : symbols.classOf '0' = .run .digits := rfl

theorem fraction_digit (h : fraction symbols false rest = .undecided) :
    fraction symbols true (rest ++ ['0']) = .digits (rest.length + 1) := by
  have hall : ∀ d ∈ rest ++ ['0'], symbols.classOf d = .run .digits := by
    refine List.forall_mem_append.2 ⟨classOf_of_fraction h, ?_⟩
    intro d hd
    obtain rfl := List.mem_singleton.1 hd
    exact classOf_zero symbols
  simp [fraction, SymbolSet.munch_of_all (List.append_ne_nil_of_right_ne_nil _ (by simp)) hall]

/-- A segment that may not extend waits for a fraction only. -/
theorem segment_wait (h : segment symbols false cls word after = .wait mode run) :
    (cls = .atom .dot ∧ fraction symbols false after = .undecided) ∨
      cls = .run .digits ∧
        (after = [] ∨ ∃ r, after = '.' :: r ∧ fraction symbols false r = .undecided) := by
  cases cls with
  | atom a =>
    cases a with
    | dot =>
      refine Or.inl ⟨rfl, ?_⟩
      simp only [segment, dot] at h
      split at h
      · cases h
      · next hf => exact hf
      · cases h
    | _ => cases h
  | run k =>
    cases k with
    | digits =>
      refine Or.inr ⟨rfl, ?_⟩
      cases after with
      | nil => exact Or.inl rfl
      | cons c r =>
        simp only [segment, number] at h
        split at h
        · next hdot =>
          subst hdot
          split at h
          · cases h
          · next hf => exact Or.inr ⟨r, rfl, hf⟩
          · cases h
        · cases h
    | _ => cases h
  | newline => cases h
  | symbol => cases h

theorem fraction_completes (hc : config.commentAt rest false = .absent)
    (ho : config.operatorAt rest false = .absent)
    (hm : config.symbols.munch rest = some (cls, word, after))
    (hsettled : SymbolSet.mayExtend cls word after = false)
    (h : segment config.symbols false cls word after = .wait mode run) :
    Completes config .normal rest := by
  have hrest := SymbolSet.munch_append _ hm
  have hmore := SymbolSet.munch_append_of_settled hm hsettled ['0']
  have hne : ['0'] ≠ [] := List.cons_ne_nil '0' []
  rcases segment_wait h with ⟨rfl, hf⟩ | ⟨rfl, rfl | ⟨r, rfl, hf⟩⟩
  · have hword := SymbolSet.munch_atom hm
    refine segment_completes hne hc ho hmore (Or.inl ⟨.float, rfl⟩) ?_
    simp only [segment, dot, fraction_digit hf, hrest, hword, List.length_append,
      List.length_singleton, Nat.add_assoc]
  · -- digits up to the end may extend
    simp [SymbolSet.mayExtend, CharClass.isRun] at hsettled
  · refine segment_completes hne hc ho hmore (Or.inl ⟨.float, rfl⟩) ?_
    simp only [segment, number, List.cons_append, if_true, fraction_digit hf, hrest,
      List.length_append, List.length_cons, List.length_nil]
    congr 1
    omega

/-! ## All ways to wait -/

theorem normal_completes (h : normal config false rest = .wait mode run) :
    Completes config .normal rest := by
  have hr := normal_ruled config false rest
  rw [h] at hr
  generalize hs : Step.wait mode run = s at hr
  cases hr with
  | atEnd _ => cases hs
  | commentOpen _ hc => exact comment_completes hc
  | comment _ _ _ _ => cases hs
  | operatorOpen _ hc ho => exact operator_completes hc ho
  | operator _ _ _ _ _ => cases hs
  | segmentOpen cls word after hc ho hm he => exact mayExtend_completes hc ho hm (by simpa using he)
  | segment cls word after hc ho hm he =>
    exact fraction_completes hc ho hm (by simpa using he) hs.symm

theorem string_completes {quote : Quote} {scanned : Nat} {escaped : Bool}
    (hn : scanned ≤ Text.size rest) (h : string false quote scanned escaped rest = .wait mode run) :
    Completes config (.string quote scanned escaped) rest := by
  obtain ⟨before, unseen, ht, hseek, -, -⟩ := Text.exists_seek hn
  simp only [string, hseek] at h
  split at h
  · cases h
  · next escaped' hq =>
    -- a character for the backslash, if there is one, and the quote
    have hend : ∃ more : Text, more ≠ [] ∧ ∀ count,
        findQuote quote.char escaped' count more = .closed (count + more.length) := by
      cases escaped' with
      | true => exact ⟨['n', quote.char], by simp, fun count => by cases quote <;> rfl⟩
      | false => exact ⟨[quote.char], by simp, fun count => by cases quote <;> rfl⟩
    obtain ⟨more, hne, hclosed⟩ := hend
    have hlen : before.length + unseen.length + more.length = (rest ++ more).length := by
      rw [ht, List.length_append, List.length_append]
    refine .of_step hne (Or.inl ⟨.string quote, rfl⟩) ?_
    simp only [step, string, Text.seek_append hn, hseek, findQuote_append, hq, hclosed, hlen]

theorem lineComment_completes {scanned : Nat} (hn : scanned ≤ Text.size rest)
    (h : lineComment false scanned rest = .wait mode run) :
    Completes config (.lineComment scanned) rest := by
  have hend : ['a'].findIdx? isLineEnd = none := rfl
  refine .of_step (List.cons_ne_nil 'a' []) (Or.inl ⟨.comment .line, rfl⟩) ?_
  simp only [lineComment] at h
  split at h
  · cases h
  · next hf =>
    simp only [step, lineComment, Text.seek_append hn, List.findIdx?_append, hf, hend,
      Option.map_none, Option.or_none, if_true]

theorem blockComment_completes {style scanned : Nat} {close : Text}
    (hn : scanned ≤ Text.size rest)
    (h : blockComment false style close scanned rest = .wait mode run) :
    Completes config (.blockComment style close scanned) rest := by
  obtain ⟨before, unseen, ht, hseek, -, -⟩ := Text.exists_seek hn
  have hne : ['a'] ≠ [] := List.cons_ne_nil 'a' []
  simp only [blockComment, hseek] at h
  split at h
  · cases h
  · next habsent =>
    have hstep : step config true (.blockComment style close scanned) (rest ++ ['a']) =
        blockComment true style close scanned (rest ++ ['a']) := rfl
    simp only [blockComment, Text.seek_append hn, hseek] at hstep
    cases hend : Text.endOf? (unseen ++ ['a']) close with
    | none =>
      rw [hend] at hstep
      exact .of_step hne (Or.inr rfl) hstep
    | some n =>
      -- the closing delimiter ends with the new character
      have hlt := Text.lt_of_endOf?_append habsent hend
      have hle := (Text.length_le_of_endOfFrom? hend).2
      have hwhole : before.length + n = (rest ++ ['a']).length := by
        rw [ht]
        simp only [List.length_append, List.length_singleton] at hle ⊢
        omega
      rw [hend] at hstep
      simp only [hwhole] at hstep
      exact .of_step hne (Or.inl ⟨.comment .block, rfl⟩) hstep

end Step

/-- Wherever the scanner waits, some text to come makes one piece of all there is and more. -/
theorem step_completes {config : Config} {mode mode' : Mode} {rest : Text} {run : Option Run}
    (fits : mode.Fits config rest) (h : step config false mode rest = .wait mode' run) :
    Completes config mode rest := by
  cases mode with
  | normal => exact Step.normal_completes h
  | string quote scanned escaped => exact Step.string_completes fits.2 h
  | lineComment scanned => exact Step.lineComment_completes fits.2 h
  | blockComment style close scanned => exact Step.blockComment_completes fits.2.2 h

theorem Scans.completes {config : Config} {mode : Mode} {rest : Text} {stop : Stop}
    (fits : mode.Fits config rest) (hne : rest ≠ [])
    (h : Scans config false mode rest [] stop) : Completes config mode rest := by
  generalize hcuts : ([] : List Cut) = cuts at h
  induction h with
  | piece _ _ _ => cases hcuts
  | @enter mode mode' rest cuts stop hstep _ ih =>
    obtain ⟨more, kind, hmore, hkind, hscan⟩ := ih (step_enter hstep).2.2 hne hcuts
    have hstep' : step config true mode (rest ++ more) = .enter mode' := by
      rw [step_append fits (by rw [hstep]; trivial), hstep]
    exact ⟨more, kind, hmore, hkind, .enter hstep' hscan⟩
  | wait hstep => exact step_completes fits hstep
  | done hstep => exact absurd (step_done hstep).2 hne

namespace Nest

/-! ## What becomes of a token -/

/-- The token is complete, or inside an open block. -/
def Holds (t : Token) (n : Nest) : Prop :=
  Token.Occurs t n.tokens ∨ ∃ f ∈ n.frames, Token.Occurs t f.children

variable {n n' : Nest} {t u : Token} {ds : List Delimiter}

theorem holds_add (n : Nest) (t : Token) : Holds t (n.add t) := by
  obtain ⟨frames, tokens⟩ := n
  cases frames with
  | nil => exact Or.inl (.here List.mem_cons_self)
  | cons f fs => exact Or.inr ⟨f.add t, List.mem_cons_self, .here List.mem_cons_self⟩

theorem Holds.add (h : Holds t n) (u : Token) : Holds t (n.add u) := by
  obtain ⟨frames, tokens⟩ := n
  cases frames with
  | nil =>
    rcases h with h | ⟨f, hf, -⟩
    · exact Or.inl (Token.occurs_cons.2 (Or.inr (Or.inr h)))
    · cases hf
  | cons f fs =>
    rcases h with h | ⟨g, hg, h⟩
    · exact Or.inl h
    · rcases List.mem_cons.1 hg with rfl | hg
      · exact Or.inr ⟨g.add u, List.mem_cons_self, Token.occurs_cons.2 (Or.inr (Or.inr h))⟩
      · exact Or.inr ⟨g, List.mem_cons_of_mem _ hg, h⟩

/-- What is inside a token that is held is held. -/
theorem Holds.inside (h : Holds u n) (ht : Token.Occurs t u.children) : Holds t n := by
  rcases h with h | ⟨f, hf, h⟩
  · exact Or.inl (h.trans ht)
  · exact Or.inr ⟨f, hf, h.trans ht⟩

theorem GivesUp.holds (hg : GivesUp ds n n') (h : Holds t n) : Holds t n' := by
  induction hg with
  | refl n => exact h
  | @step f fs tokens ds n _ ih =>
    refine ih ?_
    have hrest {g : Frame} (h : Token.Occurs t tokens ∨ g ∈ fs ∧ Token.Occurs t g.children) :
        Holds t ⟨fs, tokens⟩ := h.imp_right fun h => ⟨g, h⟩
    rcases h with h | ⟨g, hg, h⟩
    · exact (hrest (g := f) (Or.inl h)).add _
    · rcases List.mem_cons.1 hg with rfl | hg
      · exact (holds_add ⟨fs, tokens⟩ g.giveUp).inside (Token.occurs_reverse.2 h)
      · exact (hrest (Or.inr ⟨hg, h⟩)).add _

/-- At the end of the input every token is complete. -/
theorem Holds.finish (h : Holds t n) : Token.Occurs t n.finish.tokens := by
  obtain ⟨ds, tokens, hg⟩ := exists_givesUp_all n
  rw [hg.finish_eq]
  rcases hg.holds h with h | ⟨f, hf, -⟩
  · exact h
  · cases hf

end Nest

/-- A piece without children becomes a token without children, at its place. -/
theorem Nest.push_childless {p : Piece} (h : p.kind.Childless) (n : Nest) :
    ∃ t, n.push p = n.add t ∧ t.children = [] ∧ t.span = p.span := by
  obtain ⟨kind, span, lexeme⟩ := p
  rcases h with ⟨k, rfl⟩ | rfl
  · exact ⟨.leaf k span lexeme, rfl, rfl, rfl⟩
  · exact ⟨.group (.error .unterminatedComment) span lexeme [], rfl, rfl, rfl⟩

namespace Session

variable {config : Config} {s : Session}

/-- Nothing that is decided is held back: however far an input came, if text is held back then some
text to come, as the last chunk, gives a token without children that starts where the text held back
does and is longer. (Only the limit on offsets could refuse that chunk.) -/
theorem exists_longer_leaf (h : Reachable config s) (hne : s.pending ≠ []) :
    ∃ more t, (s.offset + Text.size s.pending + Text.size more ≤ maxOffset →
        s.feed config more true = s.scan config more true) ∧
      Token.Occurs t (s.scan config more true).2.tokens ∧ t.children = [] ∧
      t.span.start = s.offset ∧ s.offset + Text.size s.pending < t.span.stop := by
  have hrests := h.atRest
  obtain ⟨more, kind, hmore, hkind, hscan⟩ := hrests.rests.completes hrests.fits hne
  obtain ⟨cuts, hscan', hpieces, -⟩ := Scan.ofBuffer_scans config true s.offset
    ⟨some s.offset, s.pending ++ more⟩ (hrests.fits.append more)
  obtain ⟨rfl, -⟩ := hscan'.det hscan
  -- the chunk is scanned as one piece
  obtain ⟨p, hp, hdetach⟩ := List.map_eq_singleton_iff.1 hpieces
  have hpkind : p.kind.Childless := by
    have hk : p.kind = kind := congrArg Piece.kind hdetach
    rw [hk]
    exact hkind
  have hpspan : p.span = ⟨s.offset, s.offset + Text.size (s.pending ++ more)⟩ :=
    congrArg Piece.span hdetach
  obtain ⟨t, hpush, hchildren, hspan⟩ := Nest.push_childless hpkind ⟨s.frames, []⟩
  refine ⟨more, t, feed_eq_scan hrests true, ?_, hchildren, ?_, ?_⟩
  · rw [scan_eq, tokens_settle, hp, Token.occurs_reverse]
    have hgrow : grow s.frames true [p] = (Nest.add ⟨s.frames, []⟩ t).finish := by
      rw [← hpush]
      rfl
    rw [hgrow]
    exact (Nest.holds_add ⟨s.frames, []⟩ t).finish
  · rw [hspan, hpspan]
  · have hpos := Text.size_pos hmore
    rw [hspan, hpspan, Text.size_append]
    simp only
    omega

/-- A float that has begun in an open block, of which more digits may follow. -/
theorem exists_longer_leaf_float :
    let s := (start.feed .default ['(', '1', '.', '5'] false).1
    Reachable .default s ∧ s.pending ≠ [] ∧
      ∃ more t, (s.offset + Text.size s.pending + Text.size more ≤ maxOffset →
          s.feed .default more true = s.scan .default more true) ∧
        Token.Occurs t (s.scan .default more true).2.tokens ∧ t.children = [] ∧
        t.span.start = s.offset ∧ s.offset + Text.size s.pending < t.span.stop :=
  have hreach : Reachable .default (start.feed .default ['(', '1', '.', '5'] false).1 :=
    .feed _ .start
  ⟨hreach, by decide, exists_longer_leaf hreach (by decide)⟩

end Session

end TokenTree
