import TokenTree.Proofs.Stability
import TokenTree.Scan.Run

/-!
# Scans as derivations

`Scans` says without fuel, cursors or views what the scanner makes of a text: the pieces it cuts
off, and the state in which it comes to rest. Its main properties are that a scan is determined by
where it starts (`Scans.det`), that it loses no text (`Scans.text_eq`), and that a scan of a text
that goes on is the scan of its beginning, followed by the scan of what that left (`Scans.append`).
The fuel of `Scan.ofBuffer` is always enough for the scan to come to rest (`Scan.ofBuffer_scans`).
-/

namespace TokenTree

/-- What is cut off in one piece, wherever it stands. -/
structure Cut where
  kind : PieceKind
  text : Text

/-- The piece is not empty, and that of a bracket is the bracket. -/
structure Cut.Whole (c : Cut) : Prop where
  ne_nil : c.text ≠ []
  opener : ∀ d, c.kind = .opener d → c.text = [d.opener]
  closer : ∀ d, c.kind = .closer d → c.text = [d.closer]

/-- The state in which a scan comes to rest. -/
structure Stop where
  mode : Mode
  rest : Text
  run : Option Run

/-- The scanner cuts the text into these pieces and stops: each constructor is one of its steps. -/
inductive Scans (config : Config) (final : Bool) : Mode → Text → List Cut → Stop → Prop
  | piece {mode : Mode} {rest : Text} {kind : PieceKind} {count : Nat} {cuts : List Cut}
      {stop : Stop} (hstep : step config final mode rest = .piece kind count)
      (hscan : Scans config final .normal (rest.drop count) cuts stop) :
      Scans config final mode rest (⟨kind, rest.take count⟩ :: cuts) stop
  | enter {mode mode' : Mode} {rest : Text} {cuts : List Cut} {stop : Stop}
      (hstep : step config final mode rest = .enter mode')
      (hscan : Scans config final mode' rest cuts stop) : Scans config final mode rest cuts stop
  | wait {mode mode' : Mode} {rest : Text} {run : Option Run}
      (hstep : step config final mode rest = .wait mode' run) :
      Scans config final mode rest [] ⟨mode', rest, run⟩
  | done {mode : Mode} {rest : Text} (hstep : step config final mode rest = .done) :
      Scans config final mode rest [] ⟨mode, rest, none⟩

namespace Scans

variable {config : Config} {final : Bool} {mode mode' : Mode} {rest : Text} {cuts : List Cut}
  {stop : Stop}

/-! ## What a scan leaves -/

/-- A scan is determined by where it starts. -/
theorem det {cuts' : List Cut} {stop' : Stop} (h : Scans config final mode rest cuts stop)
    (h' : Scans config final mode rest cuts' stop') : cuts = cuts' ∧ stop = stop' := by
  induction h generalizing cuts' stop' with
  | piece hstep _ ih =>
    cases h' with
    | piece hstep' hscan' =>
      cases hstep.symm.trans hstep'
      obtain ⟨rfl, rfl⟩ := ih hscan'
      exact ⟨rfl, rfl⟩
    | enter hstep' _ => cases hstep.symm.trans hstep'
    | wait hstep' => cases hstep.symm.trans hstep'
    | done hstep' => cases hstep.symm.trans hstep'
  | enter hstep _ ih =>
    cases h' with
    | enter hstep' hscan' =>
      cases hstep.symm.trans hstep'
      exact ih hscan'
    | piece hstep' _ => cases hstep.symm.trans hstep'
    | wait hstep' => cases hstep.symm.trans hstep'
    | done hstep' => cases hstep.symm.trans hstep'
  | wait hstep =>
    cases h' with
    | wait hstep' =>
      cases hstep.symm.trans hstep'
      exact ⟨rfl, rfl⟩
    | piece hstep' _ => cases hstep.symm.trans hstep'
    | enter hstep' _ => cases hstep.symm.trans hstep'
    | done hstep' => cases hstep.symm.trans hstep'
  | done hstep =>
    cases h' with
    | done _ => exact ⟨rfl, rfl⟩
    | piece hstep' _ => cases hstep.symm.trans hstep'
    | enter hstep' _ => cases hstep.symm.trans hstep'
    | wait hstep' => cases hstep.symm.trans hstep'

/-- The pieces and what is left are the whole text. -/
theorem text_eq (h : Scans config final mode rest cuts stop) :
    rest = cuts.flatMap Cut.text ++ stop.rest := by
  induction h with
  | piece _ _ ih => rw [List.flatMap_cons, List.append_assoc, ← ih, List.take_append_drop]
  | enter _ _ ih => exact ih
  | wait _ => rfl
  | done _ => rfl

/-- The state in which a scan comes to rest is one to go on from. -/
theorem fits_stop (fits : mode.Fits config rest) (h : Scans config false mode rest cuts stop) :
    stop.mode.Fits config stop.rest := by
  induction h with
  | piece _ _ ih => exact ih trivial
  | enter hstep _ ih => exact ih (step_enter hstep).2.2
  | wait hstep => exact (step_resume fits hstep).1
  | done _ => exact fits

theorem whole (fits : mode.Fits config rest) (h : Scans config final mode rest cuts stop) {c : Cut}
    (hc : c ∈ cuts) : c.Whole := by
  induction h with
  | @piece mode rest kind count cuts stop hstep _ ih =>
    rcases List.mem_cons.1 hc with rfl | hc
    · have htakes := step_piece fits hstep
      refine ⟨?_, htakes.opener, htakes.closer⟩
      have hlen : (rest.take count).length = count := List.length_take_of_le htakes.le
      have hpos := htakes.pos
      intro hnil
      rw [show rest.take count = [] from hnil, List.length_nil] at hlen
      omega
    · exact ih trivial hc
  | enter hstep _ ih => exact ih (step_enter hstep).2.2 hc
  | wait _ => cases hc
  | done _ => cases hc

/-- With no more text to come, nothing is left. -/
theorem eq_end_of_final (h : Scans config true mode rest cuts stop) :
    stop = ⟨.normal, [], none⟩ := by
  induction h with
  | piece _ _ ih => exact ih
  | enter _ _ ih => exact ih
  | wait hstep => exact absurd hstep step_true_ne_wait
  | done hstep =>
    obtain ⟨rfl, rfl⟩ := step_done hstep
    rfl

/-! ## Texts that go on -/

/-- A scan is the same from all states that take the same step. -/
theorem of_step_eq (heq : step config final mode rest = step config final mode' rest)
    (h : Scans config final mode' rest cuts stop) : Scans config final mode rest cuts stop := by
  cases h with
  | piece hstep hscan => exact .piece (heq.trans hstep) hscan
  | enter hstep hscan => exact .enter (heq.trans hstep) hscan
  | wait hstep => exact .wait (heq.trans hstep)
  | done hstep =>
    -- no text is left between pieces only, so the states are the same
    have hmode : mode = mode' := by
      rw [(step_done hstep).1, (step_done (heq.trans hstep)).1]
    subst hmode
    exact .done hstep

/-- A text that goes on is scanned as its beginning is, and from there on with what that left. -/
theorem append {more : Text} {cuts' : List Cut} {stop' : Stop} (fits : mode.Fits config rest)
    (h : Scans config false mode rest cuts stop)
    (h' : Scans config final stop.mode (stop.rest ++ more) cuts' stop') :
    Scans config final mode (rest ++ more) (cuts ++ cuts') stop' := by
  induction h with
  | @piece mode rest kind count cuts stop hstep _ ih =>
    have hle := (step_piece fits hstep).le
    have hstep' : step config final mode (rest ++ more) = .piece kind count := by
      rw [step_append fits (by rw [hstep]; trivial), hstep]
    have htail : Scans config final .normal ((rest ++ more).drop count) (cuts ++ cuts') stop' := by
      rw [List.drop_append_of_le_length hle]
      exact ih trivial h'
    rw [List.cons_append, ← List.take_append_of_le_length hle]
    exact .piece hstep' htail
  | @enter mode mode' rest cuts stop hstep _ ih =>
    have hstep' : step config final mode (rest ++ more) = .enter mode' := by
      rw [step_append fits (by rw [hstep]; trivial), hstep]
    exact .enter hstep' (ih (step_enter hstep).2.2 h')
  | wait hstep => exact of_step_eq ((step_resume fits hstep).2 final more) h'
  | done _ => exact h'

/-- Where a scan came to rest, it rests as long as no text is added. -/
theorem again (fits : mode.Fits config rest) (h : Scans config false mode rest cuts stop) :
    Scans config false stop.mode stop.rest [] stop := by
  induction h with
  | piece _ _ ih => exact ih trivial
  | enter hstep _ ih => exact ih (step_enter hstep).2.2
  | @wait mode mode' rest run hstep =>
    have heq := (step_resume fits hstep).2 false []
    rw [List.append_nil] at heq
    exact .wait (heq.symm.trans hstep)
  | done hstep => exact .done hstep

end Scans

/-! ## The scan of a buffer -/

/-- The piece with a text of its own, in place of a view of the input. -/
def Piece.detach (p : Piece) : Piece := { p with lexeme := .copied p.lexeme.text }

/-- The pieces that stand one after the other from an offset on. -/
def layout (pos : Nat) : List Cut → List Piece
  | [] => []
  | c :: cuts =>
    ⟨c.kind, ⟨pos, pos + Text.size c.text⟩, .copied c.text⟩ :: layout (pos + Text.size c.text) cuts

theorem layout_append (pos : Nat) (cuts cuts' : List Cut) :
    layout pos (cuts ++ cuts') =
      layout pos cuts ++ layout (pos + Text.size (cuts.flatMap Cut.text)) cuts' := by
  induction cuts generalizing pos with
  | nil => rfl
  | cons c cuts ih =>
    rw [List.cons_append, layout, ih, layout, List.cons_append, List.flatMap_cons,
      Text.size_append, Nat.add_assoc]

namespace Scan

/-- Where the scan came to rest. -/
def stop (s : Scan) : Stop := ⟨s.mode, s.cursor.rest, s.run⟩

/-- The steps that are enough to come to rest: two for each character, and one between pieces. -/
def cost (mode : Mode) (rest : Text) : Nat :=
  2 * rest.length + if mode = .normal then 1 else 0

theorem cost_pos {config : Config} {mode : Mode} {rest : Text} (fits : mode.Fits config rest) :
    0 < cost mode rest := by
  unfold cost
  by_cases hmode : mode = .normal
  · rw [if_pos hmode]
    omega
  · have hne := List.length_pos_iff.2 (fits.ne_nil hmode)
    omega

theorem cost_drop {mode : Mode} {rest : Text} {kind : PieceKind} {count : Nat}
    (htakes : kind.Takes count rest) : cost .normal (rest.drop count) < cost mode rest := by
  have hpos := htakes.pos
  have hle := htakes.le
  simp only [cost, List.length_drop, if_true]
  omega

theorem cost_enter {mode : Mode} {rest : Text} (hmode : mode ≠ .normal) :
    cost mode rest < cost .normal rest := by
  simp only [cost, if_neg hmode, if_true]
  omega

/-- With enough fuel the scan comes to rest, behind the pieces of a derivation. -/
theorem go_scans (config : Config) (final : Bool) (base fuel : Nat) (seen : List Piece)
    (mode : Mode) (cursor : Cursor) (fits : mode.Fits config cursor.rest)
    (hfuel : cost mode cursor.rest ≤ fuel) :
    ∃ cuts, Scans config final mode cursor.rest cuts
        (go config final base fuel seen mode cursor).stop ∧
      (go config final base fuel seen mode cursor).pieces.map Piece.detach =
        seen.reverse.map Piece.detach ++ layout (base + cursor.pos) cuts ∧
      (go config final base fuel seen mode cursor).cursor.pos =
        cursor.pos + Text.size (cuts.flatMap Cut.text) := by
  induction fuel generalizing seen mode cursor with
  | zero =>
    have hpos := cost_pos fits
    omega
  | succ fuel ih =>
    rw [go]
    cases hstep : step config final mode cursor.rest with
    | piece kind count =>
      have hcost : cost .normal (cursor.rest.drop count) < cost mode cursor.rest :=
        cost_drop (step_piece fits hstep)
      obtain ⟨cuts, hscan, hpieces, hpos⟩ := ih
        (⟨kind, ⟨base + cursor.pos, base + (cursor.cut count).2.pos⟩,
          .ofView (cursor.cut count).1⟩ :: seen) .normal (cursor.cut count).2 trivial
        (Nat.le_of_lt_succ (Nat.lt_of_lt_of_le hcost hfuel))
      refine ⟨⟨kind, cursor.rest.take count⟩ :: cuts, .piece hstep hscan, ?_, ?_⟩
      · simp only [hpieces, List.reverse_cons, List.map_append, List.map_cons, List.map_nil,
          List.append_assoc, List.cons_append, List.nil_append, layout, Piece.detach,
          Lexeme.text_ofView, View.text_cut, Nat.add_assoc]
        rfl
      · simp only [hpos, List.flatMap_cons, Text.size_append, ← Nat.add_assoc]
        rfl
    | enter mode' =>
      obtain ⟨rfl, hmode, fits'⟩ := step_enter hstep
      have hcost : cost mode' cursor.rest < cost .normal cursor.rest := cost_enter hmode
      obtain ⟨cuts, hscan, hpieces, hpos⟩ := ih seen mode' cursor fits'
        (Nat.le_of_lt_succ (Nat.lt_of_lt_of_le hcost hfuel))
      exact ⟨cuts, .enter hstep hscan, hpieces, hpos⟩
    | wait mode' run => exact ⟨[], .wait hstep, by simp [layout], rfl⟩
    | done => exact ⟨[], .done hstep, by simp [layout], rfl⟩

/-- The scan of a buffer comes to rest, and its pieces stand one after the other. -/
theorem ofBuffer_scans (config : Config) (final : Bool) (base : Nat) {mode : Mode} (buffer : Buffer)
    (fits : mode.Fits config buffer.text) :
    ∃ cuts, Scans config final mode buffer.text cuts
        (ofBuffer config final base mode buffer).stop ∧
      (ofBuffer config final base mode buffer).pieces.map Piece.detach = layout base cuts ∧
      (ofBuffer config final base mode buffer).cursor.pos = Text.size (cuts.flatMap Cut.text) := by
  have hfuel : cost mode buffer.text ≤ 2 * buffer.text.length + 1 := by
    unfold cost
    split <;> omega
  obtain ⟨cuts, hscan, hpieces, hpos⟩ :=
    go_scans config final base _ [] mode (.ofBuffer buffer) fits hfuel
  refine ⟨cuts, hscan, hpieces, ?_⟩
  rw [ofBuffer, hpos]
  exact Nat.zero_add _

end Scan

end TokenTree
