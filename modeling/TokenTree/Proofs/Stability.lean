import TokenTree.Proofs.Prefix
import TokenTree.Proofs.Search
import TokenTree.Proofs.Segment

/-!
# Steps on a text that goes on

What the scanner decides while more text may follow is what it decides on every longer text,
complete or not (`step_append`). Where it waits, it may just as well be in the mode that it waits in
from the beginning: on every longer text the step from that mode is the step from the mode before
(`step_resume`). These two facts are all that is needed of a step to scan a text in parts.
-/

namespace TokenTree

/-- The mode is one that the scanner can be in before this text: what was searched is part of the
text, and a block comment is of a configured style. -/
def Mode.Fits (config : Config) (text : Text) : Mode → Prop
  | .normal => True
  | .string _ scanned _ => 0 < scanned ∧ scanned ≤ Text.size text
  | .lineComment scanned => 0 < scanned ∧ scanned ≤ Text.size text
  | .blockComment style close scanned =>
    (∃ start, config.styles[style]? = some ⟨start, some close⟩) ∧
      0 < scanned ∧ scanned ≤ Text.size text

theorem Mode.Fits.append {config : Config} {text : Text} {mode : Mode} (h : mode.Fits config text)
    (more : Text) : mode.Fits config (text ++ more) := by
  cases mode with
  | normal => trivial
  | string quote scanned escaped =>
    exact ⟨h.1, by rw [Text.size_append]; exact Nat.le_add_right_of_le h.2⟩
  | lineComment scanned =>
    exact ⟨h.1, by rw [Text.size_append]; exact Nat.le_add_right_of_le h.2⟩
  | blockComment style close scanned =>
    exact ⟨h.1, h.2.1, by rw [Text.size_append]; exact Nat.le_add_right_of_le h.2.2⟩

/-- In the middle of something there is text. -/
theorem Mode.Fits.ne_nil {config : Config} {text : Text} {mode : Mode} (h : mode.Fits config text)
    (hmode : mode ≠ .normal) : text ≠ [] := by
  rintro rfl
  cases mode with
  | normal => exact hmode rfl
  | string quote scanned escaped => exact absurd (Nat.lt_of_lt_of_le h.1 h.2) (Nat.lt_irrefl 0)
  | lineComment scanned => exact absurd (Nat.lt_of_lt_of_le h.1 h.2) (Nat.lt_irrefl 0)
  | blockComment style close scanned =>
    exact absurd (Nat.lt_of_lt_of_le h.2.1 h.2.2) (Nat.lt_irrefl 0)

theorem SymbolSet.mayExtend_append {cls : CharClass} {word after : Text}
    (h : mayExtend cls word after = false) (more : Text) :
    mayExtend cls word (after ++ more) = false := by
  cases after with
  | nil => simp_all [mayExtend]
  | cons c r => rfl

namespace Step

/-- The step says what is next. -/
def Decided : Step → Prop
  | .piece _ _ => True
  | .enter _ => True
  | .wait _ _ => False
  | .done => False

variable {config : Config} {symbols : SymbolSet} {final : Bool} {rest : Text}

/-! ## Numbers -/

theorem fraction_append (h : fraction symbols false rest ≠ .undecided) (more : Text) :
    fraction symbols final (rest ++ more) = fraction symbols false rest := by
  unfold fraction at h ⊢
  cases hm : symbols.munch rest with
  | none => simp [hm] at h
  | some m =>
    obtain ⟨cls, word, after⟩ := m
    by_cases hcls : cls = .run .digits
    · subst hcls
      cases he : SymbolSet.mayExtend (.run .digits) word after with
      | true => simp [hm, he] at h
      | false =>
        rw [SymbolSet.munch_append_of_settled hm he more]
        simp [he, SymbolSet.mayExtend_append he more]
    · obtain ⟨word', after', hm'⟩ := SymbolSet.exists_munch_append hm more
      rw [hm']
      split
      · next heq => cases heq; exact absurd rfl hcls
      · split
        · next heq => cases heq; exact absurd rfl hcls
        · rfl
        · next heq => cases heq
      · next heq => cases heq

theorem fraction_le {more : Nat} (h : fraction symbols final rest = .digits more) :
    more ≤ rest.length := by
  unfold fraction at h
  split at h
  · next word after hm =>
    split at h
    · cases h
    · cases h
      rw [SymbolSet.munch_append symbols hm, List.length_append]
      omega
  · cases h
  · split at h <;> cases h

theorem fraction_ne_undecided : fraction symbols true rest ≠ .undecided := by
  unfold fraction
  split <;> simp

theorem number_append {count : Nat} (h : (number symbols false count rest).Decided) (more : Text) :
    number symbols final count (rest ++ more) = number symbols false count rest := by
  cases rest with
  | nil => exact h.elim
  | cons c r =>
    simp only [number, List.cons_append] at h ⊢
    split
    · next hdot =>
      rw [if_pos hdot] at h
      rw [fraction_append _ more]
      intro hf
      rw [hf] at h
      exact h
    · rfl

theorem dot_append (h : (dot symbols false rest).Decided) (more : Text) :
    dot symbols final (rest ++ more) = dot symbols false rest := by
  simp only [dot] at h ⊢
  rw [fraction_append _ more]
  intro hf
  rw [hf] at h
  exact h

/-! ## Segments -/

/-- What a segment that starts no comment and no operator may be. -/
inductive Segmented (symbols : SymbolSet) (final : Bool) (cls : CharClass) (word after : Text) :
    Step → Prop
  | whole (kind : LeafKind) :
    Segmented symbols final cls word after (.piece (.leaf kind) word.length)
  | opener (d : Delimiter) (h : cls = .atom (.opening d)) :
    Segmented symbols final cls word after (.piece (.opener d) word.length)
  | closer (d : Delimiter) (h : cls = .atom (.closing d)) :
    Segmented symbols final cls word after (.piece (.closer d) word.length)
  | quote (q : Quote) (h : cls = .atom (.quote q)) :
    Segmented symbols final cls word after (.enter (.string q (Text.size word) false))
  | longer (kind : LeafKind) (count : Nat) (hpos : 0 < count) (hle : count ≤ 1 + after.length) :
    Segmented symbols final cls word after (.piece (.leaf kind) count)
  | number (more : Nat) (h : 1 + more ≤ after.length) :
    Segmented symbols final cls word after (.piece (.leaf .float) (word.length + 1 + more))
  | undecided (h : final = false) : Segmented symbols final cls word after (.wait .normal none)

theorem segment_segmented (symbols : SymbolSet) (final : Bool) (cls : CharClass)
    (word after : Text) :
    Segmented symbols final cls word after (segment symbols final cls word after) := by
  have decided (t : Text) (hf : fraction symbols final t = .undecided) : final = false := by
    cases final with
    | false => rfl
    | true => exact absurd hf fraction_ne_undecided
  cases cls with
  | atom a =>
    cases a with
    | opening d => exact .opener d rfl
    | closing d => exact .closer d rfl
    | quote q => exact .quote q rfl
    | backslash => exact .whole .symbol
    | slash => exact .whole .symbol
    | asterisk => exact .whole .symbol
    | dot =>
      simp only [segment, dot]
      cases hf : fraction symbols final after with
      | digits count =>
        have hle := fraction_le hf
        exact .longer .float (1 + count) (by omega) (by omega)
      | undecided => exact .undecided (decided after hf)
      | absent => exact .longer .symbol 1 (by omega) (by omega)
  | run k =>
    cases k with
    | digits =>
      simp only [segment]
      cases after with
      | nil =>
        simp only [Step.number]
        cases final with
        | true => exact .whole .integer
        | false => exact .undecided rfl
      | cons c r =>
        simp only [Step.number]
        split
        · cases hf : fraction symbols final r with
          | digits more =>
            have hle := fraction_le hf
            exact .number more (by rw [List.length_cons]; omega)
          | undecided => exact .undecided (decided r hf)
          | absent => exact .whole .integer
        · exact .whole .integer
    | text => exact .whole .ident
    | whitespace => exact .whole .whitespace
  | newline => exact .whole .whitespace
  | symbol => exact .whole .symbol

theorem segment_append {cls : CharClass} {word after : Text}
    (h : (segment symbols false cls word after).Decided) (more : Text) :
    segment symbols final cls word (after ++ more) = segment symbols false cls word after := by
  cases cls with
  | atom a =>
    cases a with
    | dot => exact dot_append h more
    | opening _ => rfl
    | closing _ => rfl
    | quote _ => rfl
    | backslash => rfl
    | slash => rfl
    | asterisk => rfl
  | run k =>
    cases k with
    | digits => exact number_append h more
    | text => rfl
    | whitespace => rfl
  | newline => rfl
  | symbol => rfl

/-! ## Between pieces -/

/-- What decides the step between pieces. -/
inductive Ruled (config : Config) (final : Bool) (rest : Text) : Step → Prop
  | atEnd (h : rest = []) : Ruled config final rest .done
  | commentOpen (hne : rest ≠ []) (h : config.commentAt rest final = .undecided) :
    Ruled config final rest (.wait .normal none)
  | comment (index : Nat) (style : CommentStyle) (hne : rest ≠ [])
      (h : config.commentAt rest final = .found index style) :
    Ruled config final rest (.enter (style.mode index))
  | operatorOpen (hne : rest ≠ []) (hc : config.commentAt rest final = .absent)
      (h : config.operatorAt rest final = .undecided) :
    Ruled config final rest (.wait .normal none)
  | operator (index : Nat) (operator : Text) (hne : rest ≠ [])
      (hc : config.commentAt rest final = .absent)
      (h : config.operatorAt rest final = .found index operator) :
    Ruled config final rest (.piece (.leaf .operator) operator.length)
  | segmentOpen (cls : CharClass) (word after : Text)
      (hc : config.commentAt rest final = .absent) (ho : config.operatorAt rest final = .absent)
      (hm : config.symbols.munch rest = some (cls, word, after))
      (h : (!final && SymbolSet.mayExtend cls word after) = true) :
    Ruled config final rest (.wait .normal cls.run?)
  | segment (cls : CharClass) (word after : Text)
      (hc : config.commentAt rest final = .absent) (ho : config.operatorAt rest final = .absent)
      (hm : config.symbols.munch rest = some (cls, word, after))
      (h : (!final && SymbolSet.mayExtend cls word after) = false) :
    Ruled config final rest (segment config.symbols final cls word after)

theorem normal_ruled (config : Config) (final : Bool) (rest : Text) :
    Ruled config final rest (normal config final rest) := by
  cases rest with
  | nil => exact .atEnd rfl
  | cons c r =>
    have hne : c :: r ≠ [] := by simp
    simp only [normal, List.isEmpty_cons]
    rw [if_neg (by simp)]
    cases hc : config.commentAt (c :: r) final with
    | undecided => exact .commentOpen hne hc
    | found index style => exact .comment index style hne hc
    | absent =>
      cases ho : config.operatorAt (c :: r) final with
      | undecided => exact .operatorOpen hne hc ho
      | found index operator => exact .operator index operator hne hc ho
      | absent =>
        obtain ⟨word, after, hm⟩ := config.symbols.exists_munch c r
        simp only [hm]
        split
        · next h => exact .segmentOpen _ word after hc ho hm h
        · next h => exact .segment _ word after hc ho hm (by simpa using h)

/-- The rules leave no choice. -/
theorem Ruled.eq {s : Step} (h : Ruled config final rest s) : s = normal config final rest := by
  have hne (h : rest ≠ []) : rest.isEmpty = false := by simpa using h
  cases h with
  | atEnd h => subst h; rfl
  | commentOpen hr h => simp [normal, hne hr, h]
  | comment index style hr h => simp [normal, hne hr, h]
  | operatorOpen hr hc h => simp [normal, hne hr, hc, h]
  | operator index operator hr hc h => simp [normal, hne hr, hc, h]
  | segmentOpen cls word after hc ho hm h =>
    have hr : rest ≠ [] := by rintro rfl; cases hm
    simp [normal, hne hr, hc, ho, hm, h]
  | segment cls word after hc ho hm h =>
    have hr : rest ≠ [] := by rintro rfl; cases hm
    simp [normal, hne hr, hc, ho, hm, h]

theorem normal_append (h : (normal config false rest).Decided) (more : Text) :
    normal config final (rest ++ more) = normal config false rest := by
  have hcomment (hc : config.commentAt rest false ≠ .undecided) :
      config.commentAt (rest ++ more) final = config.commentAt rest false :=
    PrefixMatch.find_append hc more final
  have hoperator (ho : config.operatorAt rest false ≠ .undecided) :
      config.operatorAt (rest ++ more) final = config.operatorAt rest false :=
    PrefixMatch.find_append ho more final
  refine (Ruled.eq ?_).symm
  generalize hs : normal config false rest = s at h
  have hr : Ruled config false rest s := hs ▸ normal_ruled config false rest
  cases hr with
  | atEnd _ => exact h.elim
  | commentOpen _ _ => exact h.elim
  | comment index style hne hc =>
    exact .comment index style (by simp [hne]) ((hcomment (by simp [hc])).trans hc)
  | operatorOpen _ _ _ => exact h.elim
  | operator index operator hne hc ho =>
    exact .operator index operator (by simp [hne]) ((hcomment (by simp [hc])).trans hc)
      ((hoperator (by simp [ho])).trans ho)
  | segmentOpen cls word after _ _ _ _ => exact h.elim
  | segment cls word after hc ho hm he =>
    have hsettled : SymbolSet.mayExtend cls word after = false := by simpa using he
    rw [← segment_append h more]
    exact .segment cls word (after ++ more) ((hcomment (by simp [hc])).trans hc)
      ((hoperator (by simp [ho])).trans ho) (SymbolSet.munch_append_of_settled hm hsettled more)
      (by simp [SymbolSet.mayExtend_append hsettled])

/-! ## In a string or a comment -/

theorem string_append {quote : Quote} {scanned : Nat} {escaped : Bool}
    (hn : scanned ≤ Text.size rest) (h : (string false quote scanned escaped rest).Decided)
    (more : Text) :
    string final quote scanned escaped (rest ++ more) =
      string false quote scanned escaped rest := by
  simp only [string, Text.seek_append hn, findQuote_append] at h ⊢
  cases hq : findQuote quote.char escaped (rest.seek scanned).1 (rest.seek scanned).2 with
  | closed n => rfl
  | unfinished e => rw [hq] at h; exact h.elim

theorem string_resume {quote : Quote} {scanned : Nat} {escaped : Bool} {mode : Mode}
    {run : Option Run} (hn : scanned ≤ Text.size rest)
    (h : string false quote scanned escaped rest = .wait mode run) :
    run = none ∧ ∃ escaped', mode = .string quote (Text.size rest) escaped' ∧
      ∀ final more, string final quote scanned escaped (rest ++ more) =
        string final quote (Text.size rest) escaped' (rest ++ more) := by
  obtain ⟨before, unseen, ht, hseek, -, -⟩ := Text.exists_seek hn
  have hlen : before.length + unseen.length = rest.length := by rw [ht, List.length_append]
  simp only [string, hseek] at h
  split at h
  · cases h
  · next e hq =>
    cases h
    refine ⟨rfl, e, rfl, ?_⟩
    intro final more
    have hend : Text.seek (Text.size rest) (rest ++ more) = (rest.length, more) := by
      rw [Text.seek_append (Nat.le_refl _), Text.seek_size]
      rfl
    simp only [string, Text.seek_append hn, hseek, findQuote_append, hq, hend, hlen,
      Text.size_append]

theorem lineComment_append {scanned : Nat} (hn : scanned ≤ Text.size rest)
    (h : (lineComment false scanned rest).Decided) (more : Text) :
    lineComment final scanned (rest ++ more) = lineComment false scanned rest := by
  simp only [lineComment, Text.seek_append hn, List.findIdx?_append] at h ⊢
  split at h
  · next n hf => simp only [hf, Option.some_or]
  · exact h.elim

theorem lineComment_resume {scanned : Nat} {mode : Mode} {run : Option Run}
    (hn : scanned ≤ Text.size rest) (h : lineComment false scanned rest = .wait mode run) :
    run = none ∧ mode = .lineComment (Text.size rest) ∧
      ∀ final more, lineComment final scanned (rest ++ more) =
        lineComment final (Text.size rest) (rest ++ more) := by
  obtain ⟨before, unseen, ht, hseek, -, -⟩ := Text.exists_seek hn
  have hlen : before.length + unseen.length = rest.length := by rw [ht, List.length_append]
  simp only [lineComment, hseek] at h
  split at h
  · cases h
  · next hf =>
    cases h
    refine ⟨rfl, rfl, ?_⟩
    intro final more
    have hend : Text.seek (Text.size rest) (rest ++ more) = (rest.length, more) := by
      rw [Text.seek_append (Nat.le_refl _), Text.seek_size]
      rfl
    simp only [lineComment, Text.seek_append hn, hseek, List.findIdx?_append, hf, hend,
      Option.none_or]
    cases more.findIdx? isLineEnd with
    | none => rfl
    | some n =>
      simp only [Option.map_some]
      congr 1
      omega

theorem blockComment_append {style : Nat} {close : Text} {scanned : Nat}
    (hn : scanned ≤ Text.size rest) (h : (blockComment false style close scanned rest).Decided)
    (more : Text) :
    blockComment final style close scanned (rest ++ more) =
      blockComment false style close scanned rest := by
  simp only [blockComment, Text.seek_append hn] at h ⊢
  split at h
  · next n hf => simp only [Text.endOf?_append_left hf]
  · exact h.elim

/-- An occurrence of the closing delimiter that the text to come completes does not begin among the
bytes that count as searched. -/
theorem not_begun_before {before mid unseen close more u v : Text} {scanned : Nat}
    (habsent : Text.endOf? (mid ++ unseen) close = none) (hmid : mid = u ++ v)
    (hlt : Text.size before + Text.size u <
      max scanned (Text.size (before ++ (mid ++ unseen)) - (Text.size close - 1)))
    (hscanned : scanned ≤ Text.size before) : ¬ close <+: v ++ (unseen ++ more) := by
  intro hp
  have hsize : Text.size close ≤ Text.size (v ++ unseen) := by
    simp only [Text.size_append, hmid] at hlt ⊢
    omega
  have hlen : close <+: v ++ unseen := by
    obtain ⟨r, hr⟩ := hp
    rw [← List.append_assoc] at hr
    rcases List.append_eq_append_iff.1 hr with ⟨w, hw, -⟩ | ⟨w, hw, -⟩
    · exact ⟨w, hw.symm⟩
    · have hnil : w = [] := by
        by_cases hw' : w = []
        · exact hw'
        · have hpos := Text.size_pos hw'
          rw [hw, Text.size_append] at hsize
          omega
      have heq : close = v ++ unseen := by rw [hw, hnil, List.append_nil]
      exact ⟨[], (List.append_nil close).trans heq⟩
  exact Text.endOfFrom?_eq_none_iff.1 habsent u (v ++ unseen) (by rw [hmid, List.append_assoc]) hlen

theorem blockComment_resume {style : Nat} {close : Text} {scanned : Nat} {mode : Mode}
    {run : Option Run} (hn : scanned ≤ Text.size rest)
    (h : blockComment false style close scanned rest = .wait mode run) :
    run = none ∧ ∃ scanned', mode = .blockComment style close scanned' ∧ scanned ≤ scanned' ∧
      scanned' ≤ Text.size rest ∧
      ∀ final more, blockComment final style close scanned (rest ++ more) =
        blockComment final style close scanned' (rest ++ more) := by
  have hm : max scanned (Text.size rest - (Text.size close - 1)) ≤ Text.size rest := by omega
  obtain ⟨before, mid, unseen, ht, hseek, hseek', hlt⟩ := Text.seek_seek (Nat.le_max_left _ _) hm
  obtain ⟨before', rest', ht', hbefore, hscanned, -⟩ := Text.exists_seek hn
  have hcut : before' = before := by
    rw [hseek] at hbefore
    exact (List.append_inj (ht'.symm.trans ht) (congrArg Prod.fst hbefore).symm).1
  rw [hcut] at hscanned
  simp only [blockComment, hseek] at h
  split at h
  · cases h
  · next habsent =>
    cases h
    refine ⟨rfl, _, rfl, Nat.le_max_left _ _, hm, ?_⟩
    intro final more
    have hskip : Text.endOf? (mid ++ (unseen ++ more)) close =
        (Text.endOf? (unseen ++ more) close).map (mid.length + ·) :=
      Text.endOf?_append_of_absent fun u v hmid hv =>
        not_begun_before habsent hmid (ht ▸ hlt u v hmid hv) hscanned
    simp only [blockComment, Text.seek_append hn, Text.seek_append hm, hseek, hseek',
      List.append_assoc, hskip]
    cases Text.endOf? (unseen ++ more) close with
    | some n => simp only [Option.map_some, Nat.add_assoc]
    | none =>
      have hmax : max scanned (Text.size (rest ++ more) - (Text.size close - 1)) =
          max (max scanned (Text.size rest - (Text.size close - 1)))
            (Text.size (rest ++ more) - (Text.size close - 1)) := by
        rw [Text.size_append]
        omega
      simp only [Option.map_none, ← hmax]

end Step

/-! ## The step -/

section

variable {config : Config} {final : Bool} {mode mode' : Mode} {rest : Text} {run : Option Run}

/-- What is decided while more text may follow is decided for every longer text. -/
theorem step_append (fits : mode.Fits config rest) (h : (step config false mode rest).Decided)
    (more : Text) : step config final mode (rest ++ more) = step config false mode rest := by
  cases mode with
  | normal => exact Step.normal_append h more
  | string quote scanned escaped => exact Step.string_append fits.2 h more
  | lineComment scanned => exact Step.lineComment_append fits.2 h more
  | blockComment style close scanned => exact Step.blockComment_append fits.2.2 h more

theorem normal_wait (h : Step.normal config final rest = .wait mode run) :
    mode = .normal ∧ final = false := by
  have hr := Step.normal_ruled config final rest
  rw [h] at hr
  generalize hs : Step.wait mode run = s at hr
  cases hr with
  | atEnd _ => cases hs
  | commentOpen _ hc =>
    cases hs
    cases final with
    | false => exact ⟨rfl, rfl⟩
    | true => exact absurd hc PrefixMatch.find_ne_undecided
  | comment _ _ _ _ => cases hs
  | operatorOpen _ _ ho =>
    cases hs
    cases final with
    | false => exact ⟨rfl, rfl⟩
    | true => exact absurd ho PrefixMatch.find_ne_undecided
  | operator _ _ _ _ _ => cases hs
  | segmentOpen _ _ _ _ _ _ he =>
    cases hs
    cases final with
    | false => exact ⟨rfl, rfl⟩
    | true => simp at he
  | segment cls word after _ _ _ _ =>
    have hseg := Step.segment_segmented config.symbols final cls word after
    rw [← hs] at hseg
    cases hseg with
    | undecided hf => exact ⟨rfl, hf⟩

/-- Where the scanner waits, it goes on in the new mode as it would in the old one. -/
theorem step_resume (fits : mode.Fits config rest)
    (h : step config false mode rest = .wait mode' run) :
    mode'.Fits config rest ∧
      ∀ final more,
        step config final mode (rest ++ more) = step config final mode' (rest ++ more) := by
  cases mode with
  | normal =>
    obtain ⟨rfl, -⟩ := normal_wait h
    exact ⟨trivial, fun _ _ => rfl⟩
  | string quote scanned escaped =>
    obtain ⟨-, escaped', rfl, hmore⟩ := Step.string_resume fits.2 h
    exact ⟨⟨Nat.lt_of_lt_of_le fits.1 fits.2, Nat.le_refl _⟩, hmore⟩
  | lineComment scanned =>
    obtain ⟨-, rfl, hmore⟩ := Step.lineComment_resume fits.2 h
    exact ⟨⟨Nat.lt_of_lt_of_le fits.1 fits.2, Nat.le_refl _⟩, hmore⟩
  | blockComment style close scanned =>
    obtain ⟨-, scanned', rfl, hle, hsize, hmore⟩ :=
      Step.blockComment_resume fits.2.2 h
    exact ⟨⟨fits.1, Nat.lt_of_lt_of_le fits.2.1 hle, hsize⟩, hmore⟩

/-- In a string or a comment the scanner finds the end or waits for it. -/
theorem step_inside (hmode : mode ≠ .normal) :
    (∃ kind count, step config final mode rest = .piece kind count) ∨
      final = false ∧ ∃ mode', step config final mode rest = .wait mode' none := by
  cases mode with
  | normal => exact absurd rfl hmode
  | string quote scanned escaped =>
    simp only [step, Step.string]
    split
    · exact Or.inl ⟨_, _, rfl⟩
    · cases final with
      | true => exact Or.inl ⟨_, _, rfl⟩
      | false => exact Or.inr ⟨rfl, _, rfl⟩
  | lineComment scanned =>
    simp only [step, Step.lineComment]
    split
    · exact Or.inl ⟨_, _, rfl⟩
    · cases final with
      | true => exact Or.inl ⟨_, _, rfl⟩
      | false => exact Or.inr ⟨rfl, _, rfl⟩
  | blockComment style close scanned =>
    simp only [step, Step.blockComment]
    split
    · exact Or.inl ⟨_, _, rfl⟩
    · cases final with
      | true => exact Or.inl ⟨_, _, rfl⟩
      | false => exact Or.inr ⟨rfl, _, rfl⟩

theorem run_eq_none_of_inside (hmode : mode ≠ .normal)
    (h : step config final mode rest = .wait mode' run) : run = none := by
  rcases step_inside hmode with ⟨kind, count, hp⟩ | ⟨-, mode'', hw⟩
  · cases hp.symm.trans h
  · cases hw.symm.trans h
    rfl

/-- A run that the scanner waits for the end of is all of the text. -/
theorem normal_wait_run {run : Run} (h : Step.normal config final rest = .wait mode (some run)) :
    config.commentAt rest final = .absent ∧ config.operatorAt rest final = .absent ∧
      ∃ word, config.symbols.munch rest = some (.run run, word, []) := by
  have hr := Step.normal_ruled config final rest
  rw [h] at hr
  generalize hs : Step.wait mode (some run) = s at hr
  cases hr with
  | segmentOpen cls word after hc ho hm he =>
    injection hs with _ hrun
    have hcls : cls = .run run := by
      cases cls with
      | run k => exact congrArg CharClass.run (Option.some.inj hrun).symm
      | _ => cases hrun
    have hafter : after = [] := by
      simp [SymbolSet.mayExtend] at he
      exact he.2.1
    subst hcls
    subst hafter
    exact ⟨hc, ho, word, hm⟩
  | segment cls word after _ _ _ _ =>
    have hseg := Step.segment_segmented config.symbols final cls word after
    rw [← hs] at hseg
    cases hseg
  | _ => cases hs

/-- A text to which nothing is added is never waited for. -/
theorem step_true_ne_wait : step config true mode rest ≠ .wait mode' run := by
  intro h
  by_cases hmode : mode = .normal
  · subst hmode
    exact Bool.noConfusion (normal_wait h).2
  · rcases step_inside hmode with ⟨kind, count, hp⟩ | ⟨hf, -⟩
    · exact absurd (hp.symm.trans h) nofun
    · cases hf

/-- Only between pieces there may be no text left. -/
theorem step_done (h : step config final mode rest = .done) : mode = .normal ∧ rest = [] := by
  by_cases hmode : mode = .normal
  · subst hmode
    refine ⟨rfl, ?_⟩
    have hr := Step.normal_ruled config final rest
    rw [show Step.normal config final rest = .done from h] at hr
    generalize hs : Step.done = s at hr
    cases hr with
    | atEnd hnil => exact hnil
    | segment cls word after _ _ _ _ =>
      have hseg := Step.segment_segmented config.symbols final cls word after
      rw [← hs] at hseg
      cases hseg
    | _ => cases hs
  · rcases step_inside hmode with ⟨kind, count, hp⟩ | ⟨-, mode', hw⟩
    · exact absurd (hp.symm.trans h) nofun
    · exact absurd (hw.symm.trans h) nofun

/-- Strings and comments are entered between pieces, at their beginning. -/
theorem step_enter (h : step config final mode rest = .enter mode') :
    mode = .normal ∧ mode' ≠ .normal ∧ mode'.Fits config rest := by
  by_cases hmode : mode = .normal
  · subst hmode
    refine ⟨rfl, ?_⟩
    have hr := Step.normal_ruled config final rest
    rw [show Step.normal config final rest = .enter mode' from h] at hr
    generalize hs : Step.enter mode' = s at hr
    cases hr with
    | comment index style _ hc =>
      cases hs
      obtain ⟨hindex, hp⟩ := PrefixMatch.find_found hc
      obtain ⟨r, rfl⟩ := hp
      have hpos : 0 < Text.size style.start :=
        Text.size_pos (Config.start_ne_nil (List.mem_of_getElem? hindex))
      have hle : Text.size style.start ≤ Text.size (style.start ++ r) := by
        rw [Text.size_append]
        omega
      obtain ⟨start, close⟩ := style
      cases close with
      | none => exact ⟨by simp [CommentStyle.mode], hpos, hle⟩
      | some close => exact ⟨by simp [CommentStyle.mode], ⟨start, hindex⟩, hpos, hle⟩
    | segment cls word after _ _ hm _ =>
      have hseg := Step.segment_segmented config.symbols final cls word after
      rw [← hs] at hseg
      cases hseg with
      | quote q hq =>
        subst hq
        have hword := SymbolSet.munch_atom hm
        have hrest := SymbolSet.munch_append _ hm
        subst hword
        subst hrest
        refine ⟨by simp, Text.size_pos (by simp), ?_⟩
        rw [Text.size_append]
        omega
    | _ => cases hs
  · rcases step_inside hmode with ⟨kind, count, hp⟩ | ⟨-, mode'', hw⟩
    · exact absurd (hp.symm.trans h) nofun
    · exact absurd (hw.symm.trans h) nofun

/-- What a piece is made of: at least one character, and all of them at hand; for a bracket it is
the bracket alone. -/
structure PieceKind.Takes (kind : PieceKind) (count : Nat) (rest : Text) : Prop where
  pos : 0 < count
  le : count ≤ rest.length
  opener : ∀ d, kind = .opener d → rest.take count = [d.opener]
  closer : ∀ d, kind = .closer d → rest.take count = [d.closer]

theorem PieceKind.Takes.of_leaf {kind : LeafKind} {count : Nat} {rest : Text} (pos : 0 < count)
    (le : count ≤ rest.length) : (PieceKind.leaf kind).Takes count rest :=
  ⟨pos, le, nofun, nofun⟩

theorem PieceKind.Takes.of_unterminated {rest : Text} (h : rest ≠ []) :
    PieceKind.unterminated.Takes rest.length rest :=
  ⟨List.length_pos_iff.2 h, Nat.le_refl _, nofun, nofun⟩

theorem normal_piece {kind : PieceKind} {count : Nat}
    (h : Step.normal config final rest = .piece kind count) : kind.Takes count rest := by
  have hr := Step.normal_ruled config final rest
  rw [h] at hr
  generalize hs : Step.piece kind count = s at hr
  cases hr with
  | operator index operator _ _ ho =>
    cases hs
    obtain ⟨hindex, hp⟩ := PrefixMatch.find_found ho
    have htwo := Config.two_le_length (List.mem_of_getElem? hindex)
    exact .of_leaf (by omega) hp.length_le
  | segment cls word after _ _ hm _ =>
    have hseg := Step.segment_segmented config.symbols final cls word after
    rw [← hs] at hseg
    have hrest := SymbolSet.munch_append _ hm
    have hpos := List.length_pos_iff.2 (SymbolSet.munch_ne_nil _ hm)
    have hlen : rest.length = word.length + after.length := by rw [hrest, List.length_append]
    cases hseg with
    | whole kind => exact .of_leaf hpos (by omega)
    | longer kind count hpos hle => exact .of_leaf hpos (by omega)
    | number more hle => exact .of_leaf (by omega) (by omega)
    | opener d hd =>
      subst hd
      have hword := SymbolSet.munch_atom hm
      refine ⟨hpos, by omega, ?_, nofun⟩
      intro e he
      cases he
      rw [hrest, List.take_left, hword]
      rfl
    | closer d hd =>
      subst hd
      have hword := SymbolSet.munch_atom hm
      refine ⟨hpos, by omega, nofun, ?_⟩
      intro e he
      cases he
      rw [hrest, List.take_left, hword]
      rfl
  | _ => cases hs

theorem step_piece {kind : PieceKind} {count : Nat} (fits : mode.Fits config rest)
    (h : step config final mode rest = .piece kind count) : kind.Takes count rest := by
  -- where a search begins, something of the text is behind
  have sought {n : Nat} (hpos : 0 < n) (hn : n ≤ Text.size rest) :
      0 < (rest.seek n).1 ∧ (rest.seek n).1 + (rest.seek n).2.length = rest.length := by
    obtain ⟨before, unseen, ht, hseek, hle, -⟩ := Text.exists_seek hn
    have hne : before ≠ [] := by
      rintro rfl
      rw [Text.size_nil] at hle
      omega
    rw [hseek, ht, List.length_append]
    exact ⟨List.length_pos_iff.2 hne, rfl⟩
  cases mode with
  | normal => exact normal_piece h
  | string quote scanned escaped =>
    have hne := fits.ne_nil (by simp)
    obtain ⟨hpos, hsum⟩ := sought fits.1 fits.2
    simp only [step, Step.string] at h
    split at h
    · next n hq =>
      cases h
      have hbounds := Step.count_le_of_findQuote hq
      exact .of_leaf (by omega) (by omega)
    · split at h
      · cases h
        exact .of_leaf (by omega) (List.length_pos_iff.2 hne)
      · cases h
  | lineComment scanned =>
    have hne := fits.ne_nil (by simp)
    obtain ⟨hpos, hsum⟩ := sought fits.1 fits.2
    simp only [step, Step.lineComment] at h
    split at h
    · next n hf =>
      cases h
      have hlt := (List.findIdx?_eq_some_iff_findIdx_eq.1 hf).1
      exact .of_leaf (by omega) (by omega)
    · split at h
      · cases h
        exact .of_leaf (List.length_pos_iff.2 hne) (Nat.le_refl _)
      · cases h
  | blockComment style close scanned =>
    have hne := fits.ne_nil (by simp)
    obtain ⟨hpos, hsum⟩ := sought fits.2.1 fits.2.2
    simp only [step, Step.blockComment] at h
    split at h
    · next n hf =>
      cases h
      have hle := (Text.length_le_of_endOfFrom? hf).2
      exact .of_leaf (by omega) (by omega)
    · split at h
      · cases h
        exact .of_unterminated hne
      · cases h

end

end TokenTree
