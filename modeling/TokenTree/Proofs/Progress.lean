import TokenTree.Proofs.Resuming
import TokenTree.Proofs.Saturation

/-!
# The loop of the scanner ends

A program takes the steps of the scanner in a loop, and puts each piece into the nest as soon as it
is cut off. A turn of that loop makes progress, or it ends the loop: it is blocked until there is
more text, or there is no text left (`Loop.turn`).

What a turn that makes progress does is said once (`Loop.Sound.progress`): it lowers `Scan.cost`,
does not go back, and loses no text. It need not go forward, as strings and comments are entered
without taking any text, so there are up to two turns for each character. By induction on the turns
all this holds of any number of them (`Loop.Turns.kept`).

A string that is not closed has been searched to the end of the text, and is given up for a symbol
that is its quote alone. The loop goes on behind the quote, with all of the text that was searched
still to come. But it never comes to that quote again (`Loop.Terminates.behind`).

Positions are exact here, and the loop ends in every buffer. It is the loop of a scanner whose
offsets saturate only as long as none of them does (`Loop.Terminates.checked`). So loops start in
buffers that end by the greatest offset (`Loop.Starts`), as a session refuses a chunk that ends
later, and `Loop.terminates_of_starts_fails` has an input in which the other one never ends.
-/

namespace TokenTree

theorem Text.length_le_size (t : Text) : t.length ≤ size t := by
  induction t with
  | nil => exact Nat.le_refl 0
  | cons c t ih =>
    have hpos := Char.utf8Size_pos c
    rw [List.length_cons, size_cons]
    omega

/-! ## The loop -/

/-- Where the loop stands between two turns. -/
structure Loop where
  /-- What the scanner is in the middle of. -/
  mode : Mode
  /-- The start of the piece that it is in. -/
  cursor : Cursor
  /-- What became of the pieces before. -/
  nest : Nest

namespace Loop

/-- The loop at the start of a buffer. -/
def start (mode : Mode) (buffer : Buffer) (nest : Nest) : Loop := ⟨mode, .ofBuffer buffer, nest⟩

/-- What a turn comes to. -/
inductive Turn where
  /-- The loop goes on from there. -/
  | progress (l : Loop)
  /-- More text is needed. -/
  | blocked (mode : Mode) (run : Option Run)
  /-- There is no text left. -/
  | exhausted

/-- The next `count` characters as a piece. Its span is exact, also beyond the greatest offset. -/
def piece (base : Nat) (l : Loop) (kind : PieceKind) (count : Nat) : Piece :=
  let (view, next) := l.cursor.cut count
  ⟨kind, ⟨base + l.cursor.pos, base + next.pos⟩, .ofView view⟩

/-- One turn of the loop, in a buffer whose first byte has offset `base`. It goes on right behind
the piece, wherever that is. -/
def turn (config : Config) (final : Bool) (base : Nat) (l : Loop) : Turn :=
  match step config final l.mode l.cursor.rest with
  | .piece kind count =>
    .progress ⟨.normal, (l.cursor.cut count).2, l.nest.push (l.piece base kind count)⟩
  | .enter mode => .progress { l with mode := mode }
  | .wait mode run => .blocked mode run
  | .done => .exhausted

/-- The loop goes on for so many turns. -/
inductive Turns (config : Config) (final : Bool) (base : Nat) : Nat → Loop → Loop → Prop
  | none (l : Loop) : Turns config final base 0 l l
  | more {n : Nat} {l l' l'' : Loop} (hturn : l.turn config final base = .progress l')
      (hturns : Turns config final base n l' l'') : Turns config final base (n + 1) l l''

/-- What is found when the loop ends behind these pieces, if it does. -/
def scan? (config : Config) (final : Bool) (base : Nat) (pieces : List Piece) (l : Loop) :
    Option Scan :=
  match l.turn config final base with
  | .progress _ => none
  | .blocked mode run => some ⟨pieces, mode, l.cursor, run⟩
  | .exhausted => some ⟨pieces, l.mode, l.cursor, .none⟩

/-- The string that the scanner is in is given up for a symbol. -/
def GivesUp (config : Config) (final : Bool) (l : Loop) : Prop :=
  ∃ quote scanned escaped, l.mode = .string quote scanned escaped ∧
    step config final l.mode l.cursor.rest = .piece (.leaf .symbol) 1

variable {config : Config} {final : Bool} {base n m : Nat} {l l' l'' : Loop}

/-! ## One turn -/

/-- The scanner can be in this mode before this text. -/
structure Sound (config : Config) (l : Loop) : Prop where
  fits : l.mode.Fits config l.cursor.rest
  quoted : l.mode.Quoted l.cursor.rest

/-- What `n` turns do at least, and what they keep. -/
structure Kept (n : Nat) (l l' : Loop) : Prop where
  buffer : l'.cursor.buffer = l.cursor.buffer
  cost : n + Scan.cost l'.mode l'.cursor.rest ≤ Scan.cost l.mode l.cursor.rest
  pos : l.cursor.pos ≤ l'.cursor.pos
  text : l'.nest.text ++ l'.cursor.rest = l.nest.text ++ l.cursor.rest

theorem Kept.refl (l : Loop) : Kept 0 l l :=
  ⟨rfl, Nat.le_of_eq (Nat.zero_add _), Nat.le_refl _, rfl⟩

theorem Kept.trans (h : Kept n l l') (h' : Kept m l' l'') : Kept (m + n) l l'' := by
  refine ⟨h'.buffer.trans h.buffer, ?_, Nat.le_trans h.pos h'.pos, h'.text.trans h.text⟩
  have hcost := h.cost
  have hcost' := h'.cost
  omega

/-- A turn that cuts a piece off goes forward by its text. -/
theorem kept_piece {kind : PieceKind} {count : Nat} (htakes : kind.Takes count l.cursor.rest) :
    Kept 1 l ⟨.normal, (l.cursor.cut count).2, l.nest.push (l.piece base kind count)⟩ := by
  have hcost : Scan.cost .normal (l.cursor.rest.drop count) < Scan.cost l.mode l.cursor.rest :=
    Scan.cost_drop htakes
  have htext : (l.piece base kind count).lexeme.text = l.cursor.rest.take count := by
    rw [piece, Lexeme.text_ofView, View.text_cut]
  refine ⟨rfl, ?_, Nat.le_add_right _ _, ?_⟩
  · rw [Nat.add_comm]
    exact hcost
  · rw [Nest.text_push, htext, List.append_assoc]
    exact congrArg (l.nest.text ++ ·) (List.take_append_drop count l.cursor.rest)

/-- A turn that makes progress brings the loop nearer to its end and leaves it where it can go
on. -/
theorem Sound.progress (h : l.Sound config) (hturn : l.turn config final base = .progress l') :
    l'.Sound config ∧ Kept 1 l l' := by
  unfold turn at hturn
  split at hturn
  · next kind count hstep =>
    cases hturn
    exact ⟨⟨trivial, trivial⟩, kept_piece (step_piece h.fits hstep)⟩
  · next mode hstep =>
    cases hturn
    obtain ⟨hnormal, hmode, fits⟩ := step_enter hstep
    have hcost : Scan.cost mode l.cursor.rest < Scan.cost .normal l.cursor.rest :=
      Scan.cost_enter hmode
    refine ⟨⟨fits, quoted_enter hstep⟩, rfl, ?_, Nat.le_refl _, rfl⟩
    rw [hnormal, Nat.add_comm]
    exact hcost
  · cases hturn
  · cases hturn

/-- A string that is given up leaves its quote behind, and nothing else. -/
theorem Sound.rewinds (h : l.Sound config) (hgives : l.GivesUp config final)
    (hturn : l.turn config final base = .progress l') :
    l'.mode = .normal ∧ l'.cursor.pos = l.cursor.pos + 1 := by
  obtain ⟨quote, scanned, escaped, hmode, hstep⟩ := hgives
  have hquoted := h.quoted
  rw [hmode] at hquoted
  obtain ⟨inside, unseen, hrest, -⟩ := hquoted
  rw [turn, hstep] at hturn
  cases hturn
  refine ⟨rfl, ?_⟩
  show l.cursor.pos + Text.size (l.cursor.rest.take 1) = l.cursor.pos + 1
  rw [hrest, List.cons_append, List.take_succ_cons, List.take_zero, quote.size_singleton]

theorem turn_ne_blocked (config : Config) (base : Nat) (l : Loop) (mode : Mode) (run : Option Run) :
    l.turn config true base ≠ .blocked mode run := by
  intro h
  unfold turn at h
  split at h
  · cases h
  · cases h
  · next hstep => exact step_true_ne_wait hstep
  · cases h

theorem rest_of_exhausted (h : l.turn config final base = .exhausted) : l.cursor.rest = [] := by
  unfold turn at h
  split at h
  · cases h
  · cases h
  · cases h
  · next hstep => exact (step_done hstep).2

/-! ## Many turns -/

theorem Turns.kept (h : Turns config final base n l l') (hsound : l.Sound config) :
    l'.Sound config ∧ Kept n l l' := by
  induction h with
  | none l => exact ⟨hsound, .refl l⟩
  | more hturn _ ih =>
    obtain ⟨hsound', hfirst⟩ := hsound.progress hturn
    obtain ⟨hsound'', hothers⟩ := ih hsound'
    exact ⟨hsound'', hfirst.trans hothers⟩

/-- A loop that can go on from here will have ended after fewer turns than the cost says. -/
theorem Turns.lt_cost (h : Turns config final base n l l') (hsound : l.Sound config) :
    n < Scan.cost l.mode l.cursor.rest := by
  obtain ⟨hsound', hkept⟩ := h.kept hsound
  have hpos := Scan.cost_pos hsound'.fits
  have hcost := hkept.cost
  omega

/-- Wherever the loop ends, it comes there from every place on its way. -/
theorem Turns.rest (h : Turns config final base n l l')
    (hends : ∀ next, l'.turn config final base ≠ .progress next)
    (h' : Turns config final base m l l'') : ∃ k, n = m + k ∧ Turns config final base k l'' l' := by
  induction h' generalizing n with
  | none l => exact ⟨n, (Nat.zero_add n).symm, h⟩
  | more hturn _ ih =>
    cases h with
    | none => exact absurd hturn (hends _)
    | more hturn' hturns =>
      cases hturn.symm.trans hturn'
      obtain ⟨k, rfl, hrest⟩ := ih hturns
      exact ⟨k, Nat.add_right_comm _ k 1, hrest⟩

/-- From every place the loop comes to one where it does not go on. -/
theorem Sound.exists_end (h : l.Sound config) (final : Bool) (base : Nat) :
    ∃ n l', Turns config final base n l l' ∧
      ∀ next, l'.turn config final base ≠ .progress next := by
  -- each turn lowers the cost
  induction hcost : Scan.cost l.mode l.cursor.rest using Nat.strong_induction_on generalizing l with
  | _ cost ih =>
    by_cases hgoes : ∃ next, l.turn config final base = .progress next
    · obtain ⟨next, hturn⟩ := hgoes
      obtain ⟨hsound, hkept⟩ := h.progress hturn
      have hlower := hkept.cost
      obtain ⟨n, l', hturns, hends⟩ := ih _ (by omega) hsound rfl
      exact ⟨n + 1, l', .more hturn hturns, hends⟩
    · exact ⟨0, l, .none l, not_exists.1 hgoes⟩

/-! ## The loop and the scan -/

/-- A turn is a step of the scan, and puts the piece into the nest that the scan collects. -/
theorem exists_go_progress (hturn : l.turn config final base = .progress l') :
    ∃ pieces : List Piece, l'.nest = pieces.foldl Nest.push l.nest ∧
      ∀ fuel seen, Scan.go config final base (fuel + 1) seen l.mode l.cursor =
        Scan.go config final base fuel (pieces.reverse ++ seen) l'.mode l'.cursor := by
  unfold turn at hturn
  split at hturn
  · next kind count hstep =>
    cases hturn
    refine ⟨[l.piece base kind count], rfl, fun fuel seen => ?_⟩
    rw [Scan.go, hstep]
    rfl
  · next mode hstep =>
    cases hturn
    refine ⟨[], rfl, fun fuel seen => ?_⟩
    rw [Scan.go, hstep]
    rfl
  · cases hturn
  · cases hturn

theorem Turns.exists_go (h : Turns config final base n l l') :
    ∃ pieces : List Piece, l'.nest = pieces.foldl Nest.push l.nest ∧
      ∀ fuel seen, Scan.go config final base (n + fuel) seen l.mode l.cursor =
        Scan.go config final base fuel (pieces.reverse ++ seen) l'.mode l'.cursor := by
  induction h with
  | none l => exact ⟨[], rfl, fun fuel seen => by rw [Nat.zero_add]; rfl⟩
  | @more n l l' l'' hturn _ ih =>
    obtain ⟨first, hfirst, hgo⟩ := exists_go_progress hturn
    obtain ⟨others, hothers, hgo'⟩ := ih
    refine ⟨first ++ others, ?_, fun fuel seen => ?_⟩
    · rw [List.foldl_append, ← hfirst, hothers]
    · rw [Nat.add_right_comm, hgo, hgo', List.reverse_append, List.append_assoc]

/-- Where the loop ends the scan does, if there is fuel to see it. -/
theorem scan?_of_end (hends : ∀ next, l.turn config final base ≠ .progress next) (fuel : Nat)
    (seen : List Piece) : l.scan? config final base seen.reverse =
      some (Scan.go config final base (fuel + 1) seen l.mode l.cursor) := by
  cases hstep : step config final l.mode l.cursor.rest with
  | piece kind count => exact absurd (by rw [turn, hstep]) (hends _)
  | enter mode => exact absurd (by rw [turn, hstep]) (hends _)
  | wait mode run => rw [scan?, turn, Scan.go, hstep]
  | done => rw [scan?, turn, Scan.go, hstep]

theorem pieces_of_scan? {pieces : List Piece} {scan : Scan}
    (h : l.scan? config final base pieces = some scan) : scan.pieces = pieces := by
  unfold scan? at h
  split at h
  · cases h
  · cases h
    rfl
  · cases h
    rfl

/-- With more fuel than the loop has turns the scan finds what the loop does. -/
theorem Turns.exists_scan (h : Turns config final base n l l')
    (hends : ∀ next, l'.turn config final base ≠ .progress next) :
    ∃ pieces : List Piece, l'.nest = pieces.foldl Nest.push l.nest ∧
      ∀ fuel, n < fuel → l'.scan? config final base pieces =
        some (Scan.go config final base fuel [] l.mode l.cursor) := by
  obtain ⟨pieces, hnest, hgo⟩ := h.exists_go
  refine ⟨pieces, hnest, fun fuel hfuel => ?_⟩
  obtain ⟨more, rfl⟩ := Nat.exists_eq_add_of_lt hfuel
  have hlast := scan?_of_end hends more pieces.reverse
  rw [List.reverse_reverse, ← List.append_nil pieces.reverse, ← hgo] at hlast
  exact hlast

/-! ## From the start of a buffer -/

section

variable {mode : Mode} {buffer : Buffer} {nest : Nest}

theorem Turns.le_length (h : Turns config final base n (start mode buffer nest) l)
    (hsound : Sound config (start mode buffer nest)) : n ≤ 2 * buffer.text.length := by
  have hcost : n < Scan.cost mode buffer.text := h.lt_cost hsound
  unfold Scan.cost at hcost
  split at hcost <;> omega

/-- Where no text is left, all of the buffer went into the nest. -/
theorem Kept.assembled (h : Kept n (start mode buffer nest) l) (hrest : l.cursor.rest = []) :
    l.cursor.pos = Text.size buffer.text ∧ l.nest.text = nest.text ++ buffer.text := by
  have htext : l.nest.text ++ l.cursor.rest = nest.text ++ buffer.text := h.text
  have hbuffer : l.cursor.buffer = buffer := h.buffer
  obtain ⟨before, hbefore, hpos⟩ := l.cursor.inside
  rw [hrest, List.append_nil] at htext hbefore
  rw [hbuffer] at hbefore
  exact ⟨by rw [← hpos, hbefore], htext⟩

/-- Behind a string that was given up the loop is further on. -/
theorem Sound.lt_pos (h : l.Sound config) (hgives : l.GivesUp config final) (hm : 0 < m)
    (hturns : Turns config final base m l l') : l.cursor.pos < l'.cursor.pos := by
  cases hturns with
  | none => cases hm
  | more hturn hturns =>
    have hpos := (h.rewinds hgives hturn).2
    have hlater := (hturns.kept (h.progress hturn).1).2.pos
    omega

/-- What is true of the loop from the start of a buffer on. -/
structure Terminates (config : Config) (final : Bool) (base : Nat) (mode : Mode) (buffer : Buffer)
    (nest : Nest) : Prop where
  /-- It never goes on for more than two turns for each byte. -/
  bounded : ∀ n l, Turns config final base n (start mode buffer nest) l →
    n ≤ 2 * Text.size buffer.text
  /-- It comes to one end, from wherever it comes to, with what the scan of the buffer finds. How
  much more fuel a scan has than it needs makes no difference. -/
  ends : ∃ n l, Turns config final base n (start mode buffer nest) l ∧
    (∀ m l', Turns config final base m (start mode buffer nest) l' →
      ∃ k, n = m + k ∧ Turns config final base k l' l) ∧
    l.scan? config final base (Scan.ofBuffer config final base mode buffer).pieces =
      some (Scan.ofBuffer config final base mode buffer) ∧
    l.nest = (Scan.ofBuffer config final base mode buffer).pieces.foldl Nest.push nest ∧
    ∀ fuel, n < fuel → Scan.go config final base fuel [] mode (.ofBuffer buffer) =
      Scan.ofBuffer config final base mode buffer
  /-- With offsets that saturate it comes to the same end, and no access fails on the way. -/
  checked : ∀ fuel, 2 * Text.size buffer.text < fuel →
    Checked.go config final base buffer fuel [] mode 0 =
      .ok (Scan.ofBuffer config final base mode buffer).reached
  /-- When no more text is to come it is nowhere blocked, whatever it is in the middle of. -/
  unblocked : final = true → ∀ (l : Loop) (mode : Mode) (run : Option Run),
    l.turn config final base ≠ .blocked mode run
  /-- Where it finds that there is no text left, all of the buffer went into the nest. -/
  assembled : ∀ n l, Turns config final base n (start mode buffer nest) l →
    l.turn config final base = .exhausted →
      l.cursor.pos = Text.size buffer.text ∧ l.nest.text = nest.text ++ buffer.text
  /-- Where a string is given up, the loop goes on right behind its quote. -/
  rewinds : ∀ n l, Turns config final base n (start mode buffer nest) l →
    l.GivesUp config final → ∀ l', l.turn config final base = .progress l' →
      l'.mode = .normal ∧ l'.cursor.pos = l.cursor.pos + 1
  /-- It does not come to that quote again. -/
  behind : ∀ n l, Turns config final base n (start mode buffer nest) l →
    l.GivesUp config final → ∀ m l', 0 < m → Turns config final base m l l' →
      l.cursor.pos < l'.cursor.pos

theorem terminates_of_fits (hfit : base + Text.size buffer.text ≤ maxOffset)
    (fits : mode.Fits config buffer.text) (hquoted : mode.Quoted buffer.text) (nest : Nest) :
    Terminates config final base mode buffer nest := by
  have hsound : Sound config (start mode buffer nest) := ⟨fits, hquoted⟩
  have hlength := Nat.mul_le_mul_left 2 (Text.length_le_size buffer.text)
  obtain ⟨n, l, hturns, hends⟩ := hsound.exists_end final base
  obtain ⟨pieces, hnest, hscan⟩ := hturns.exists_scan hends
  have hle := hturns.le_length hsound
  have hwhole : l.scan? config final base pieces =
      some (Scan.ofBuffer config final base mode buffer) := hscan _ (Nat.lt_succ_of_le hle)
  have hgo (fuel : Nat) (hfuel : n < fuel) :
      Scan.go config final base fuel [] mode (.ofBuffer buffer) =
        Scan.ofBuffer config final base mode buffer :=
    Option.some.inj ((hscan fuel hfuel).symm.trans hwhole)
  constructor
  case bounded => exact fun n l h => Nat.le_trans (h.le_length hsound) hlength
  case ends =>
    obtain rfl := pieces_of_scan? hwhole
    exact ⟨n, l, hturns, fun m l' => hturns.rest hends, hwhole, hnest, hgo⟩
  case checked =>
    intro fuel hfuel
    have hcost : Scan.cost mode buffer.text ≤ fuel := by
      unfold Scan.cost
      split <;> omega
    rw [← hgo fuel (by omega)]
    exact Checked.go_eq fuel [] mode (.ofBuffer buffer) hfit fits hquoted hcost
  case unblocked =>
    rintro rfl
    exact turn_ne_blocked config base
  case assembled =>
    intro n l h hturn
    exact (h.kept hsound).2.assembled (rest_of_exhausted hturn)
  case rewinds => exact fun n l h hgives l' => (h.kept hsound).1.rewinds hgives
  case behind => exact fun n l h hgives m l' => (h.kept hsound).1.lt_pos hgives

/-- Where loops start: in the text of a whole input, and in the text held back with a chunk behind
it, whatever the session was used for before. The buffer ends by the greatest offset. -/
inductive Starts (config : Config) : (final : Bool) → (base : Nat) → Mode → Buffer → Prop
  | lex (buffer : Buffer) (hfit : Text.size buffer.text ≤ maxOffset) :
      Starts config true 0 .normal buffer
  | feed (calls : List Session.Call) {s : Session}
      (hs : s = (Session.Usage.start.run config calls).session) (hopen : s.finished = false)
      (chunk : Text) (final : Bool)
      (hfit : s.offset + Text.size (s.pending ++ chunk) ≤ maxOffset) :
      Starts config final s.offset s.mode ⟨some s.offset, s.pending ++ chunk⟩

theorem Starts.fits (h : Starts config final base mode buffer) :
    base + Text.size buffer.text ≤ maxOffset ∧ mode.Fits config buffer.text ∧
      mode.Quoted buffer.text := by
  cases h with
  | lex buffer hfit => exact ⟨by rwa [Nat.zero_add], trivial, trivial⟩
  | feed calls hs hopen chunk final hfit =>
    subst hs
    have hreach := Session.Usage.reachable config calls hopen
    have hstart (text : Text) : Mode.normal.Quoted text := trivial
    have hquoted := Scans.quoted_stop (hstart _) hreach.fresh
    exact ⟨hfit, hreach.atRest.fits.append chunk, hquoted.append chunk⟩

/-- The loop ends wherever it starts. It makes progress at most twice for each byte of the buffer,
and from everywhere on its way it comes to the one end that the scan finds. When no more text is to
come it is never blocked, and ends when all of the buffer went into the nest. Where it gives a
string up it goes on right behind the quote, and does not come there again. -/
theorem terminates_of_starts (h : Starts config final base mode buffer) (nest : Nest) :
    Terminates config final base mode buffer nest := by
  obtain ⟨hfit, fits, hquoted⟩ := h.fits
  exact terminates_of_fits hfit fits hquoted nest

/-- A string that was searched up to a backslash, which escapes what comes. It is given up, and so
are the two strings that start in it. -/
theorem terminates_of_starts_strings :
    let calls : List Session.Call := [.feed ['a'] true, .reset, .feed ['(', '"', 'b', '\\'] false]
    let s := (Session.Usage.start.run .default calls).session
    s.mode = .string .double 3 true ∧
      Starts .default true s.offset s.mode ⟨some s.offset, s.pending ++ ['"', '\'', 'c']⟩ ∧
      Terminates .default true s.offset s.mode ⟨some s.offset, s.pending ++ ['"', '\'', 'c']⟩
        ⟨s.frames, []⟩ :=
  have hstarts := .feed _ rfl (by decide +kernel) ['"', '\'', 'c'] true (by decide +kernel)
  ⟨by decide +kernel, hstarts, terminates_of_starts hstarts _⟩

end

/-- Beyond the greatest offset the loop of a scanner whose offsets saturate need not end: here that
of the symbol is that of the last letter, which is cut off again and again. And a session that is in
a comment cannot go on with settings that do not have the comment's style. -/
theorem terminates_of_starts_fails :
    (let buffer : Buffer := ⟨some 0, List.replicate (maxOffset + 1) 'a' ++ ['+']⟩
      ∀ fuel, Checked.go .default true 0 buffer (fuel + 2) [] .normal 0 = .error .endless) ∧
    (let s := (Session.Usage.start.run .default [.feed ['/', '*'] false]).session
      ∃ config : Config, config.styles = [] ∧ s.finished = false ∧
        Checked.scanBuffer config true s.offset s.mode ⟨some s.offset, s.pending⟩ =
          .error .index) := by
  constructor
  · exact Checked.go_letters_symbol
  · intro s
    let bare : Config := ⟨⟨Config.default.symbols, [], []⟩, rfl⟩
    exact ⟨bare, rfl, by decide +kernel, rfl⟩

end Loop

end TokenTree
