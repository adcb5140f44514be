import TokenTree.Proofs.Checked
import TokenTree.Proofs.Quoted

/-!
# No check of a step fails

A step of the checked scanner passes all its checks and decides what `step` decides
(`Checked.step_eq`). What is needed of the mode is that it fits the text (`Mode.Fits`), and that a
string in which the scanner is starts with its quote and was searched up to a byte between
characters (`Mode.Quoted`): a character that is escaped is read there. Comments may have been
searched up to any byte.
-/

namespace TokenTree

namespace Checked

/-! ## Accesses -/

section

variable {before rest : Text}

@[simp] theorem ok_bind {α β : Type} (x : α) (f : α → Except Failure β) :
    (Except.ok x >>= f) = f x := rfl

@[simp] theorem pure_eq {α : Type} (x : α) : (pure x : Except Failure α) = .ok x := rfl

@[simp] theorem cut_append (before rest : Text) :
    cut (before ++ rest) (Text.size before) = .ok rest := by rw [cut, Text.dropBytes?_append]

theorem bytesFrom_append (before : Text) {rest : Text} {n : Nat} (h : n ≤ Text.size rest) :
    bytesFrom (before ++ rest) (Text.size before + n) = .ok ((Text.bytes rest).drop n) := by
  rw [bytesFrom, if_pos (by rw [Text.size_append]; omega), Text.bytes_append, ← Text.length_bytes,
    List.drop_length_add_append]

theorem byteAt_append {c : Char} (hc : c.utf8Size = 1) (before after : Text) :
    byteAt (before ++ c :: after) (Text.size before) = .ok c.toUInt8 := by
  have hget : (Text.bytes (before ++ c :: after))[Text.size before]? = some c.toUInt8 := by
    rw [Text.bytes_append, Text.bytes_cons, Text.bytes_ascii hc, ← Text.length_bytes,
      List.getElem?_append_right (Nat.le_refl _), Nat.sub_self]
    rfl
  rw [byteAt, hget]

@[simp] theorem minus_add (a b : Nat) : minus (a + b) a = .ok b := by
  rw [minus, if_pos (Nat.le_add_right a b), Nat.add_sub_cancel_left]

theorem itemAt_of {α : Type} {items : List α} {index : Nat} {item : α}
    (h : items[index]? = some item) : itemAt items index = .ok item := by rw [itemAt, h]

/-- The range of a view lies between characters, and its lexeme is the view. -/
theorem lexeme_view (v : View) : lexeme v.buffer v.start v.stop = .ok (.ofView v) := by
  obtain ⟨before, htext, hstart⟩ := v.inside.starts
  obtain ⟨after, hrest, hstop⟩ := v.exists_rest
  have hdrop : v.buffer.text.dropBytes? v.start = some v.rest := by
    rw [htext, ← hstart, Text.dropBytes?_append]
  have hdrop' : Text.dropBytes? (v.stop - v.start) v.rest = some after := by
    rw [← hstop, Nat.add_sub_cancel_left, hrest, Text.dropBytes?_append]
  have hview : View.ofRange? v.buffer v.start v.stop = some v := by
    unfold View.ofRange?
    rw [dif_pos (by omega)]
    split
    · next rest hrest' =>
      cases hrest'.symm.trans hdrop
      split
      · rfl
      · next hnone => cases hnone.symm.trans hdrop'
    · next hnone => cases hnone.symm.trans hdrop
  rw [lexeme, Lexeme.ofRange, hview]

theorem lexeme_cut (cursor : Cursor) (count : Nat) :
    lexeme cursor.buffer cursor.pos (cursor.cut count).2.pos =
      .ok (.ofView (cursor.cut count).1) := lexeme_view (cursor.cut count).1

end

/-! ## Segments -/

/-- The move that the step is from byte `pos` on, where `rest` stands. -/
def Move.ofStep (pos : Nat) (rest : Text) : Step → Move
  | .piece kind count => .piece kind pos (pos + Text.size (rest.take count))
  | .enter mode => .enter mode
  | .wait mode run => .wait mode run
  | .done => .done

/-- Where the digits end that stand at the beginning of `rest`, from byte `pos` on. -/
def Fraction.ofStep (pos : Nat) (rest : Text) : Step.Fraction → Fraction
  | .digits count => .digits (pos + Text.size (rest.take count))
  | .undecided => .undecided
  | .absent => .absent

section

variable {symbols : SymbolSet} {final : Bool} {base : Nat} {before rest word after : Text}
  {cls : CharClass}

/-- The segment that stands at a position, however far behind in the text. -/
theorem segmentAt_append (symbols : SymbolSet) (base : Nat) (before rest : Text) :
    segmentAt symbols base (before ++ rest) (Text.size before) =
      .ok ((symbols.munch rest).map fun m =>
        ⟨m.1, Segmenter.offset base (Text.size before),
          Segmenter.offset 0 (Text.size m.2.1)⟩) := by
  simp only [segmentAt, SymbolSet.segmentAt?, Segmenter.seek?, Segmenter.ofText,
    Text.dropBytes?_append, Option.map_some, Segmenter.next?, Option.map_map]
  rfl

theorem segmentAt_eq (hfit : base + Text.size (before ++ rest) ≤ maxOffset) :
    segmentAt symbols base (before ++ rest) (Text.size before) =
      .ok ((symbols.munch rest).map fun m =>
        ⟨m.1, base + Text.size before, Text.size m.2.1⟩) := by
  rw [Text.size_append] at hfit
  rw [segmentAt_append]
  cases hm : symbols.munch rest with
  | none => rfl
  | some m =>
    obtain ⟨cls, word, after⟩ := m
    have hword := congrArg Text.size (SymbolSet.munch_append symbols hm)
    rw [Text.size_append] at hword
    have hstart : Segmenter.offset base (Text.size before) = base + Text.size before :=
      Segmenter.offset_eq (by omega)
    have hlength : Segmenter.offset 0 (Text.size word) = Text.size word := by
      rw [Segmenter.offset_eq (by omega), Nat.zero_add]
    simp only [Option.map_some, hstart, hlength]

theorem peek_zero (hfit : base + Text.size (before ++ rest) ≤ maxOffset) :
    peek symbols base (before ++ rest) (Text.size before) 0 =
      .ok ((symbols.munch rest).map fun m =>
        ⟨m.1, base + Text.size before, Text.size m.2.1⟩) := segmentAt_eq hfit

/-- A look beyond the first segment is one from behind it. -/
theorem peek_succ (hfit : base + Text.size (before ++ rest) ≤ maxOffset)
    (hm : symbols.munch rest = some (cls, word, after)) (k : Nat) :
    peek symbols base (before ++ rest) (Text.size before) (k + 1) =
      peek symbols base ((before ++ word) ++ after) (Text.size (before ++ word)) k := by
  rw [peek, segmentAt_eq hfit, hm, Option.map_some, ok_bind, List.append_assoc,
    ← SymbolSet.munch_append symbols hm, Text.size_append]

theorem range_eq (cls : CharClass) (start length : Nat) :
    range base ⟨cls, base + start, length⟩ = .ok (start, start + length) := by
  simp only [range, minus_add, ok_bind, pure_eq]

/-- When no more text follows the offsets are not looked at. -/
theorem mayExtend_true (symbols : SymbolSet) (base : Nat) (text : Text) (segment : Segment) :
    mayExtend symbols true base text segment = .ok false := rfl

/-- Whether a segment could be longer can be told by its offsets. -/
theorem mayExtend_false (hfit : base + Text.size (before ++ rest) ≤ maxOffset)
    (hm : symbols.munch rest = some (cls, word, after)) :
    mayExtend symbols false base (before ++ rest)
        ⟨cls, base + Text.size before, Text.size word⟩ =
      .ok (SymbolSet.mayExtend cls word after) := by
  have hrest := SymbolSet.munch_append symbols hm
  have hne := SymbolSet.munch_ne_nil symbols hm
  have hstop : base + Text.size before + Text.size word = base + Text.size (before ++ word) := by
    rw [Text.size_append, Nat.add_assoc]
  have hplus : plus (base + Text.size before) (Text.size word) =
      .ok (base + Text.size (before ++ word)) := by
    have hle : base + Text.size (before ++ word) ≤ maxOffset := by
      rw [hrest, Text.size_append, Text.size_append] at hfit
      rw [Text.size_append]
      omega
    rw [plus, hstop, if_pos hle]
  have hend : (Text.size (before ++ word) == Text.size (before ++ rest)) = after.isEmpty := by
    rw [hrest, ← List.append_assoc, Text.size_append _ after]
    cases after with
    | nil => simp
    | cons c r =>
      have hpos := Text.size_pos (List.cons_ne_nil c r)
      rw [List.isEmpty_cons, beq_eq_false_iff_ne]
      omega
  have hlast (hafter : after = []) : (cls == .newline && (before ++ rest).getLast? == some '\r') =
      (word == ['\r']) := by
    rw [hrest, hafter, List.append_nil, List.getLast?_append, List.getLast?_eq_some_getLast hne,
      Option.some_or, ← List.getLast?_eq_some_getLast hne]
    exact SymbolSet.lone_return hm
  rw [mayExtend, if_neg Bool.false_ne_true]
  simp only [hplus, ok_bind, minus_add, pure_eq, Segmenter.mayExtend, Segment.stop,
    Segmenter.ofText, hstop, Nat.add_sub_cancel_left, hend, SymbolSet.mayExtend]
  cases after with
  | nil => rw [hlast rfl]
  | cons c r => rfl

theorem mayExtend_eq (hfit : base + Text.size (before ++ rest) ≤ maxOffset)
    (hm : symbols.munch rest = some (cls, word, after)) :
    mayExtend symbols final base (before ++ rest)
        ⟨cls, base + Text.size before, Text.size word⟩ =
      .ok (!final && SymbolSet.mayExtend cls word after) := by
  cases final with
  | true => exact mayExtend_true ..
  | false => exact mayExtend_false hfit hm

theorem fraction_succ (hfit : base + Text.size (before ++ rest) ≤ maxOffset)
    (hm : symbols.munch rest = some (cls, word, after)) (k : Nat) :
    fraction symbols final base (before ++ rest) (Text.size before) (k + 1) =
      fraction symbols final base ((before ++ word) ++ after) (Text.size (before ++ word)) k := by
  have hrest := SymbolSet.munch_append symbols hm
  rw [fraction, fraction, peek_succ hfit hm, List.append_assoc, ← hrest]

theorem fraction_zero (hfit : base + Text.size (before ++ rest) ≤ maxOffset) :
    fraction symbols final base (before ++ rest) (Text.size before) 0 =
      .ok (Fraction.ofStep (Text.size before) rest (Step.fraction symbols final rest)) := by
  rw [fraction, peek_zero hfit, ok_bind, Step.fraction]
  cases hm : symbols.munch rest with
  | none => cases final <;> rfl
  | some m =>
    obtain ⟨cls, word, after⟩ := m
    have hrest := SymbolSet.munch_append symbols hm
    by_cases hcls : cls = .run .digits
    · subst hcls
      simp only [Option.map_some, if_true, mayExtend_eq hfit hm, range_eq, ok_bind, pure_eq]
      split
      · rfl
      · rw [Fraction.ofStep, hrest, List.take_left]
    · simp only [Option.map_some, if_neg hcls, pure_eq]
      split
      · next heq => cases heq; exact absurd rfl hcls
      · rfl
      · next heq => cases heq

theorem take_succ_append (s t : Text) (c : Char) (n : Nat) :
    Text.size ((s ++ c :: t).take (s.length + 1 + n)) =
      Text.size (s ++ [c]) + Text.size (t.take n) := by
  rw [Nat.add_assoc, List.take_length_add_append, Nat.add_comm 1 n, List.take_succ_cons,
    Text.size_append, Text.size_append, Text.size_cons, Text.size_cons, Text.size_nil]
  omega

theorem number_eq (hfit : base + Text.size (before ++ rest) ≤ maxOffset)
    (hm : symbols.munch rest = some (.run .digits, word, after)) :
    number symbols final base (before ++ rest) (Text.size before)
        (Text.size before + Text.size word) =
      .ok (.ofStep (Text.size before) rest (Step.number symbols final word.length after)) := by
  have hrest := SymbolSet.munch_append symbols hm
  have hfit' : base + Text.size ((before ++ word) ++ after) ≤ maxOffset := by
    rw [List.append_assoc, ← hrest]
    exact hfit
  have hword : Text.size (rest.take word.length) = Text.size word := by rw [hrest, List.take_left]
  rw [number, peek_succ hfit hm, peek_zero hfit', ok_bind]
  cases after with
  | nil =>
    simp only [SymbolSet.munch, Option.map_none, Step.number, pure_eq]
    cases final with
    | true => simp only [if_true, Move.ofStep, hword]
    | false => rfl
  | cons c r =>
    obtain ⟨word', after', hm'⟩ := symbols.exists_munch c r
    simp only [hm', Option.map_some, Step.number]
    by_cases hc : c = '.'
    · subst hc
      have hdot : symbols.classOf '.' = .atom .dot := rfl
      rw [hdot] at hm' ⊢
      obtain rfl : word' = ['.'] := SymbolSet.munch_atom hm'
      obtain rfl : r = after' := (List.cons.inj (SymbolSet.munch_append symbols hm')).2
      have hfit'' : base + Text.size (((before ++ word) ++ ['.']) ++ r) ≤ maxOffset := by
        rw [List.append_assoc _ ['.']]
        exact hfit'
      rw [fraction_succ hfit hm, fraction_succ hfit' hm', fraction_zero hfit'']
      simp only [if_true, ok_bind]
      cases Step.fraction symbols final r with
      | digits more =>
        simp only [Fraction.ofStep, Move.ofStep, pure_eq, hrest, take_succ_append]
        simp only [Text.size_append, Nat.add_assoc]
      | undecided => rfl
      | absent => simp only [Fraction.ofStep, Move.ofStep, pure_eq, hword]
    · have hcls : symbols.classOf c ≠ .atom .dot := fun h =>
        hc (SymbolSet.char_of_classOf h).symm
      simp only [if_neg hcls, if_neg hc, pure_eq, Move.ofStep, hword]

theorem dot_eq (hfit : base + Text.size (before ++ rest) ≤ maxOffset)
    (hm : symbols.munch rest = some (.atom .dot, word, after)) :
    dot symbols final base (before ++ rest) (Text.size before)
        (Text.size before + Text.size word) =
      .ok (.ofStep (Text.size before) rest (Step.dot symbols final after)) := by
  have hrest := SymbolSet.munch_append symbols hm
  obtain rfl : word = ['.'] := SymbolSet.munch_atom hm
  have hfit' : base + Text.size ((before ++ ['.']) ++ after) ≤ maxOffset := by
    rw [List.append_assoc, ← hrest]
    exact hfit
  rw [dot, fraction_succ hfit hm, fraction_zero hfit', ok_bind, Step.dot]
  cases Step.fraction symbols final after with
  | digits more =>
    have htake := take_succ_append [] after '.' more
    simp only [List.nil_append, List.length_nil, Nat.zero_add] at htake
    simp only [Fraction.ofStep, Move.ofStep, pure_eq, hrest, List.singleton_append, htake,
      Text.size_append, Nat.add_assoc]
  | undecided => rfl
  | absent =>
    simp only [Fraction.ofStep, Move.ofStep, pure_eq, hrest]
    rfl

theorem segment_eq (hfit : base + Text.size (before ++ rest) ≤ maxOffset)
    (hm : symbols.munch rest = some (cls, word, after)) :
    segment symbols final base (before ++ rest) cls (Text.size before)
        (Text.size before + Text.size word) =
      .ok (.ofStep (Text.size before) rest (Step.segment symbols final cls word after)) := by
  have hrest := SymbolSet.munch_append symbols hm
  have hword (kind : PieceKind) :
      Move.ofStep (Text.size before) rest (.piece kind word.length) =
        .piece kind (Text.size before) (Text.size before + Text.size word) := by
    rw [Move.ofStep, hrest, List.take_left]
  cases cls with
  | atom a =>
    cases a with
    | opening d => exact congrArg Except.ok (hword (.opener d)).symm
    | closing d => exact congrArg Except.ok (hword (.closer d)).symm
    | quote q =>
      obtain rfl : word = [q.char] := SymbolSet.munch_atom hm
      have hsize : Text.size [q.char] = 1 := by rw [Text.size_cons, q.size_char, Text.size_nil]
      simp only [segment, Step.segment, Move.ofStep, hsize]
    | dot => exact dot_eq hfit hm
    | backslash => exact congrArg Except.ok (hword (.leaf .symbol)).symm
    | slash => exact congrArg Except.ok (hword (.leaf .symbol)).symm
    | asterisk => exact congrArg Except.ok (hword (.leaf .symbol)).symm
  | run k =>
    cases k with
    | digits => exact number_eq hfit hm
    | text => exact congrArg Except.ok (hword (.leaf .ident)).symm
    | whitespace => exact congrArg Except.ok (hword (.leaf .whitespace)).symm
  | newline => exact congrArg Except.ok (hword (.leaf .whitespace)).symm
  | symbol => exact congrArg Except.ok (hword (.leaf .symbol)).symm

end

/-! ## Strings and comments -/

theorem findQuote_of_absent {quote : Char} {t : Text} (h : ∀ c ∈ t, c ≠ quote ∧ c ≠ '\\')
    (count : Nat) : Step.findQuote quote false count t = .unfinished false := by
  induction t generalizing count with
  | nil => rfl
  | cons c t ih =>
    obtain ⟨hquote, hbackslash⟩ := h c List.mem_cons_self
    rw [Step.findQuote, if_neg Bool.false_ne_true, if_neg hbackslash, if_neg hquote]
    exact ih (fun d hd => h d (List.mem_cons_of_mem c hd)) (count + 1)

/-- The first quote or backslash decides a search in which nothing is escaped. -/
theorem findQuote_of_first {quote : Char} {u v : Text} {c : Char}
    (h : ∀ x ∈ u, x ≠ quote ∧ x ≠ '\\') (hc : c = quote ∨ c = '\\') (count : Nat) :
    Step.findQuote quote false count (u ++ c :: v) =
      if c = '\\' then Step.findQuote quote true (count + u.length + 1) v
      else .closed (count + u.length + 1) := by
  rw [Step.findQuote_append, findQuote_of_absent h]
  simp only [Step.findQuote, Bool.false_eq_true, if_false]
  split
  · rfl
  · next hescape => rw [if_pos (hc.resolve_right hescape)]

theorem findQuote_first {quote : Quote} {u v : Text} {c : Char}
    (h : ∀ x ∈ u, x ≠ quote.char ∧ x ≠ '\\') (hc : c = quote.char ∨ c = '\\') (seen : Text) :
    findQuote quote (seen ++ (u ++ c :: v)) (Text.size seen) false =
      if c = '\\' then
        findQuote quote (seen ++ (u ++ c :: v)) (Text.size seen + Text.size u + 1) true
      else .ok (.closed (Text.size seen + Text.size u + 1)) := by
  have hquote := quote.size_char
  have hbackslash : '\\'.utf8Size = 1 := rfl
  have hsize : c.utf8Size = 1 := by rcases hc with rfl | rfl <;> assumption
  have hbytes := bytesFrom_append seen (Nat.zero_le (Text.size (u ++ c :: v)))
  rw [Nat.add_zero, List.drop_zero] at hbytes
  have hbyte : byteAt (seen ++ (u ++ c :: v)) (Text.size seen + Text.size u) = .ok c.toUInt8 := by
    rw [← List.append_assoc, ← Text.size_append]
    exact byteAt_append hsize (seen ++ u) v
  rw [findQuote_unescaped, hbytes, ok_bind, Text.findByte_of_first hquote hbackslash h hc]
  simp only [hbyte, ok_bind, pure_eq]
  by_cases hescape : c = '\\'
  · rw [if_pos hescape, if_pos (congrArg Char.toUInt8 hescape)]
  · obtain rfl : c = quote.char := hc.resolve_right hescape
    have hne : quote.char.toUInt8 ≠ '\\'.toUInt8 := by cases quote <;> decide
    rw [if_neg hescape, if_neg hne]

/-- Where a string ends that was searched up to the end of `seen`, its first `count` characters. -/
def Quoted.ofStep (seen unseen : Text) (count : Nat) : Step.Quoted → Quoted
  | .closed n => .closed (Text.size seen + Text.size (unseen.take (n - count)))
  | .unfinished escaped => .unfinished (Text.size (seen ++ unseen)) escaped

/-- A search that goes on behind `u` ends where that from before `u` on does. -/
theorem Quoted.ofStep_behind (quote : Char) (escaped : Bool) (count : Nat) (seen u v : Text) :
    ofStep (seen ++ u) v (count + u.length) (Step.findQuote quote escaped (count + u.length) v) =
      ofStep seen (u ++ v) count (Step.findQuote quote escaped (count + u.length) v) := by
  cases h : Step.findQuote quote escaped (count + u.length) v with
  | closed n =>
    have hle := (Step.count_le_of_findQuote h).1
    have hcount : n - count = u.length + (n - (count + u.length)) := by omega
    simp only [ofStep, hcount, List.take_length_add_append, Text.size_append, Nat.add_assoc]
  | unfinished escaped => simp only [ofStep, List.append_assoc]

/-- The search for a quote by bytes finds what that by characters does. -/
theorem findQuote_eq (quote : Quote) (seen unseen : Text) (escaped : Bool) (count : Nat) :
    findQuote quote (seen ++ unseen) (Text.size seen) escaped =
      .ok (.ofStep seen unseen count (Step.findQuote quote.char escaped count unseen)) := by
  cases escaped with
  | true =>
    rw [findQuote_escaped, cut_append, ok_bind]
    cases unseen with
    | nil => simp only [Step.findQuote, Quoted.ofStep, List.append_nil, pure_eq]
    | cons c r =>
      have hgoes := findQuote_eq quote (seen ++ [c]) r false (count + 1)
      have hbehind := Quoted.ofStep_behind quote.char false count seen [c] r
      rw [List.append_assoc, List.singleton_append, Text.size_append, Text.size_cons,
        Text.size_nil, Nat.add_zero] at hgoes
      exact hgoes.trans (congrArg Except.ok hbehind)
  | false =>
    rcases Text.exists_first quote.char '\\' unseen with habsent | ⟨u, c, v, rfl, habsent, hc⟩
    · have hbytes := bytesFrom_append seen (Nat.zero_le (Text.size unseen))
      rw [Nat.add_zero, List.drop_zero] at hbytes
      rw [findQuote_unescaped, hbytes, ok_bind, findQuote_of_absent habsent,
        Text.findByte_of_absent quote.size_char rfl habsent]
      rfl
    · rw [findQuote_first habsent hc, findQuote_of_first habsent hc]
      split
      · next hescape =>
        have hgoes := findQuote_eq quote (seen ++ (u ++ [c])) v true (count + (u ++ [c]).length)
        have hbehind := Quoted.ofStep_behind quote.char true count seen (u ++ [c]) v
        have hsize : Text.size (seen ++ (u ++ [c])) = Text.size seen + Text.size u + 1 := by
          rw [hescape, Text.size_append, Text.size_append, ← Nat.add_assoc]
          rfl
        have htext : (u ++ [c]) ++ v = u ++ c :: v := by
          rw [List.append_assoc, List.singleton_append]
        have hcount : count + (u ++ [c]).length = count + u.length + 1 := by
          rw [List.length_append, List.length_singleton, Nat.add_assoc]
        rw [List.append_assoc, htext, hsize, hcount] at hgoes
        rw [htext, hcount] at hbehind
        exact hgoes.trans (congrArg Except.ok hbehind)
      · next hescape =>
        obtain rfl : c = quote.char := hc.resolve_right hescape
        have hcount : count + u.length + 1 - count = u.length + 1 := by omega
        have htake : Text.size ((u ++ quote.char :: v).take (u.length + 1)) = Text.size u + 1 := by
          rw [List.take_length_add_append, List.take_succ_cons, List.take_zero, Text.size_append,
            Text.size_cons, Text.size_nil, quote.size_char]
        rw [Quoted.ofStep, hcount, htake, Nat.add_assoc]
termination_by unseen.length

section

variable {config : Config} {final : Bool} {base : Nat} {before rest : Text}

theorem string_eq {quote : Quote} {scanned : Nat} {escaped : Bool}
    (hquoted : (Mode.string quote scanned escaped).Quoted rest) :
    string final (before ++ rest) quote (Text.size before) scanned escaped =
      .ok (.ofStep (Text.size before) rest (Step.string final quote scanned escaped rest)) := by
  obtain ⟨inside, unseen, hrest, rfl⟩ := hquoted
  have hsearch := findQuote_eq quote (before ++ (quote.char :: inside)) unseen escaped
    (quote.char :: inside).length
  rw [List.append_assoc, ← hrest, Text.size_append before] at hsearch
  have hseek : rest.seek (Text.size (quote.char :: inside)) =
      ((quote.char :: inside).length, unseen) := by rw [hrest, Text.seek_behind]
  rw [string, hsearch, ok_bind, Step.string, hseek]
  cases hq : Step.findQuote quote.char escaped (quote.char :: inside).length unseen with
  | closed n =>
    have hle := (Step.count_le_of_findQuote hq).1
    have htake : rest.take n =
        (quote.char :: inside) ++ unseen.take (n - (quote.char :: inside).length) := by
      rw [hrest, List.take_append, List.take_of_length_le (Nat.le_of_lt hle)]
    simp only [hq, Quoted.ofStep, Move.ofStep, htake, Text.size_append, Nat.add_assoc, pure_eq]
  | unfinished escaped =>
    cases final with
    | true =>
      have htake : rest.take 1 = [quote.char] := by rw [hrest]; rfl
      simp only [hq, Quoted.ofStep, if_true, pure_eq, Move.ofStep, htake, Text.size_cons,
        quote.size_char, Text.size_nil]
    | false =>
      have hwhole : (before ++ (quote.char :: inside)) ++ unseen = before ++ rest := by
        rw [hrest, List.append_assoc]
      have hscanned : minus (Text.size (before ++ rest)) (Text.size before) =
          .ok (Text.size rest) := by rw [Text.size_append, minus_add]
      simp only [hq, Quoted.ofStep, hwhole, hscanned, Bool.false_eq_true, if_false, ok_bind,
        pure_eq, Move.ofStep]

theorem lineComment_eq {scanned : Nat} (hscanned : scanned ≤ Text.size rest) :
    lineComment final (before ++ rest) (Text.size before) scanned =
      .ok (.ofStep (Text.size before) rest (Step.lineComment final scanned rest)) := by
  have hsearch := Text.findByte_drop (a := '\n') (b := '\r') rfl rfl hscanned
  have hline : Step.isLineEnd = fun c => c == '\n' || c == '\r' := rfl
  rw [lineComment, bytesFrom_append before hscanned, ok_bind, Step.lineComment, hline]
  cases hfound : Text.findByte '\n' '\r' ((Text.bytes rest).drop scanned) with
  | none =>
    rw [hfound, Option.map_none, eq_comm, Option.map_eq_none_iff] at hsearch
    simp only [hsearch]
    cases final with
    | true => simp only [if_true, pure_eq, Move.ofStep, List.take_length, Text.size_append]
    | false => simp only [Bool.false_eq_true, if_false, Text.size_append, minus_add, ok_bind,
        pure_eq, Move.ofStep]
  | some found =>
    rw [hfound, Option.map_some, eq_comm, Option.map_eq_some_iff] at hsearch
    obtain ⟨count, hcount, hstop⟩ := hsearch
    simp only [hcount, pure_eq, Move.ofStep, hstop, Nat.add_assoc]

theorem blockComment_eq {style : Nat} {close : Text} {scanned : Nat}
    (fits : (Mode.blockComment style close scanned).Fits config rest) :
    blockComment final (before ++ rest) config.styles style (Text.size before) scanned =
      .ok (.ofStep (Text.size before) rest (Step.blockComment final style close scanned rest)) := by
  obtain ⟨⟨start, hstyle⟩, -, hscanned⟩ := fits
  have hclose : close ≠ [] := Config.close_ne_nil (List.mem_of_getElem? hstyle) rfl
  have hsearch := Text.findBytes_drop hclose hscanned
  have hkept : minus (Text.size close) 1 = .ok (Text.size close - 1) := by
    have hpos := Text.size_pos hclose
    rw [minus, if_pos (by omega)]
  rw [blockComment, itemAt_of hstyle, ok_bind]
  simp only [bytesFrom_append before hscanned, ok_bind, Step.blockComment]
  cases hfound : Text.findBytes (Text.bytes close) ((Text.bytes rest).drop scanned) with
  | none =>
    rw [hfound, Option.map_none, eq_comm, Option.map_eq_none_iff] at hsearch
    simp only [hsearch]
    cases final with
    | true => simp only [if_true, pure_eq, Move.ofStep, List.take_length, Text.size_append]
    | false => simp only [Bool.false_eq_true, if_false, hkept, Text.size_append, minus_add,
        ok_bind, pure_eq, Move.ofStep]
  | some found =>
    rw [hfound, Option.map_some, eq_comm, Option.map_eq_some_iff] at hsearch
    obtain ⟨count, hcount, hstop⟩ := hsearch
    simp only [hcount, pure_eq, Move.ofStep, hstop, Nat.add_assoc]

/-! ## The step -/

theorem normal_eq (hfit : base + Text.size (before ++ rest) ≤ maxOffset) :
    normal config final base (before ++ rest) (Text.size before) =
      .ok (.ofStep (Text.size before) rest (Step.normal config final rest)) := by
  have hr := Step.normal_ruled config final rest
  generalize Step.normal config final rest = s at hr
  have hempty (hne : rest ≠ []) : rest.isEmpty = false := by simpa using hne
  have hmunch {m : CharClass × Text × Text} (hm : config.symbols.munch rest = some m) :
      rest ≠ [] := by
    rintro rfl
    cases hm
  rw [normal, cut_append, ok_bind]
  cases hr with
  | atEnd h =>
    subst h
    rfl
  | commentOpen hne hc => simp [hempty hne, hc, Move.ofStep]
  | comment index style hne hc =>
    have hitem := itemAt_of (PrefixMatch.find_found hc).1
    simp [hempty hne, hc, hitem, Move.ofStep]
  | operatorOpen hne hc ho => simp [hempty hne, hc, ho, Move.ofStep]
  | operator index operator hne hc ho =>
    obtain ⟨hindex, hp⟩ := PrefixMatch.find_found ho
    have htake : rest.take operator.length = operator := (List.prefix_iff_eq_take.1 hp).symm
    simp [hempty hne, hc, ho, itemAt_of hindex, Move.ofStep, htake]
  | segmentOpen cls word after hc ho hm he =>
    simp only [hempty (hmunch hm), Bool.false_eq_true, if_false, hc, ho, peek_zero hfit, hm,
      Option.map_some, ok_bind, mayExtend_eq hfit hm, he, if_true, pure_eq, Move.ofStep]
  | segment cls word after hc ho hm he =>
    simp only [hempty (hmunch hm), Bool.false_eq_true, if_false, hc, ho, peek_zero hfit, hm,
      Option.map_some, ok_bind, mayExtend_eq hfit hm, he, range_eq, segment_eq hfit hm]

/-- In a string or a comment no offset beyond the text is looked at, however far behind in the input
it is. -/
theorem step_inside {mode : Mode} (hmode : mode ≠ .normal) (fits : mode.Fits config rest)
    (hquoted : mode.Quoted rest) :
    step config final base (before ++ rest) mode (Text.size before) =
      .ok (.ofStep (Text.size before) rest (TokenTree.step config final mode rest)) := by
  cases mode with
  | normal => exact absurd rfl hmode
  | string quote scanned escaped => exact string_eq hquoted
  | lineComment scanned => exact lineComment_eq fits.2
  | blockComment style close scanned => exact blockComment_eq fits

/-- A step passes all its checks, and decides what the step by characters does. -/
theorem step_eq {mode : Mode} (hfit : base + Text.size (before ++ rest) ≤ maxOffset)
    (fits : mode.Fits config rest) (hquoted : mode.Quoted rest) :
    step config final base (before ++ rest) mode (Text.size before) =
      .ok (.ofStep (Text.size before) rest (TokenTree.step config final mode rest)) := by
  by_cases hmode : mode = .normal
  · subst hmode
    exact normal_eq hfit
  · exact step_inside hmode fits hquoted

end

end Checked

end TokenTree
