import Mathlib.Algebra.Group.Int.Defs
import Mathlib.Algebra.GroupWithZero.Nat
import Mathlib.Data.List.Basic

/-!
# Incremental parsers

A parser takes turns on the text that it has. It leaves its loop when it waits for more, when it is done and when there is
an error. Where every turn comes to the same on a longer text, it makes no difference in which pieces the parser gets a
text.
-/

namespace Rad.Lib

/-- What a turn comes to: the loop goes on, or is left without or with an error. -/
inductive Turn (σ α ε : Type*) where
  | next (s : σ) (rest : List α)
  | stop (s : σ) (rest : List α)
  | fail (s : σ) (rest : List α) (e : ε)

/-- The state behind a turn. -/
def Turn.state {σ α ε : Type*} : Turn σ α ε → σ
  | .next s _ => s
  | .stop s _ => s
  | .fail s _ _ => s

/-- The text behind a turn. -/
def Turn.rest {σ α ε : Type*} : Turn σ α ε → List α
  | .next _ rest => rest
  | .stop _ rest => rest
  | .fail _ rest _ => rest

/-- What a turn comes to when `W` tells whether the turns behind it leave the loop before the end of the text, in no state
of `D`. -/
def Turn.Waits {σ α ε : Type*} (D : σ → Prop) (W : σ → List α → Prop) : Turn σ α ε → Prop
  | .next s rest => W s rest
  | .stop s rest => rest ≠ [] ∧ ¬D s
  | .fail _ _ _ => False

/-- What a call comes to, with the text that is not consumed. -/
structure Outcome (σ α ε : Type*) where
  state : σ
  rest : List α
  error : Option ε

/-- A turn that is a call of a parser, behind which the state comes from the one of the parser. -/
def Outcome.turn {σ τ α ε : Type*} (o : Outcome τ α ε) (f : τ → σ) : Turn σ α ε :=
  match o.error with
  | none => .next (f o.state) o.rest
  | some e => .fail (f o.state) o.rest e

/-- A loop that goes on as long as there is text. -/
structure Machine (σ α ε : Type*) where
  turn : σ → α → List α → Turn σ α ε
  measure : σ → List α → Nat
  less : ∀ {s s' : σ} {a : α} {t rest : List α}, turn s a t = .next s' rest → measure s' rest < measure s (a :: t)

section

variable {σ α ε : Type*}

def Machine.run (m : Machine σ α ε) (s : σ) (t : List α) : Outcome σ α ε :=
  match t with
  | [] => ⟨s, [], none⟩
  | a :: t =>
    match _h : m.turn s a t with
    | .next s rest => m.run s rest
    | .stop s rest => ⟨s, rest, none⟩
    | .fail s rest e => ⟨s, rest, some e⟩
  termination_by m.measure s t
  decreasing_by exact m.less _h

/-- A parser whose errors are lasting. -/
def Machine.parse (m : Machine σ α ε) (lastError : σ → Option ε) (failWith : σ → ε → σ) (s : σ) (t : List α) :
    Outcome σ α ε :=
  match lastError s with
  | some e => ⟨s, t, some e⟩
  | none =>
    let o := m.run s t
    match o.error with
    | none => o
    | some e => ⟨failWith o.state e, o.rest, some e⟩

/-- The calls of a parser behind `o`: each gets a piece of the text behind what is left of the pieces before. -/
def feed (parse : σ → List α → Outcome σ α ε) (o : Outcome σ α ε) (pieces : List (List α)) : Outcome σ α ε :=
  pieces.foldl (fun o piece => parse o.state (o.rest ++ piece)) o

/-! ## Runs -/

namespace Machine

variable {m : Machine σ α ε} {s s' : σ} {a : α} {t rest : List α} {e : ε}

@[simp] theorem run_nil : m.run s [] = ⟨s, [], none⟩ := by rw [run]

theorem run_cons : m.run s (a :: t) =
    match m.turn s a t with
    | .next s rest => m.run s rest
    | .stop s rest => ⟨s, rest, none⟩
    | .fail s rest e => ⟨s, rest, some e⟩ := by
  rw [run]
  split
  · rename_i h
    rw [h]
  · rename_i h
    rw [h]
  · rename_i h
    rw [h]

theorem run_next (h : m.turn s a t = .next s' rest) : m.run s (a :: t) = m.run s' rest := by
  rw [run_cons, h]

theorem run_next_of {t : List α} (hne : t ≠ []) (h : ∀ a u, t = a :: u → m.turn s a u = .next s' rest) :
    m.run s t = m.run s' rest := by
  obtain ⟨a, u, rfl⟩ := List.exists_cons_of_ne_nil hne
  exact run_next (h a u rfl)

theorem run_stop (h : m.turn s a t = .stop s' rest) : m.run s (a :: t) = ⟨s', rest, none⟩ := by
  rw [run_cons, h]

theorem run_fail (h : m.turn s a t = .fail s' rest e) : m.run s (a :: t) = ⟨s', rest, some e⟩ := by
  rw [run_cons, h]

/-- What every turn preserves holds at the end of a run. -/
theorem run_preserves {I : σ → Prop} (hturn : ∀ s a t, I s → I (m.turn s a t).state) (hs : I s) :
    I (m.run s t).state := by
  induction s, t using run.induct m with
  | case1 s => rwa [run_nil]
  | case2 s a t s' rest h ih =>
      have hnext := hturn s a t hs
      rw [h] at hnext
      rw [run_next h]
      exact ih hnext
  | case3 s a t s' rest h =>
      have hstop := hturn s a t hs
      rw [h] at hstop
      rwa [run_stop h]
  | case4 s a t s' rest e h =>
      have hfail := hturn s a t hs
      rw [h] at hfail
      rwa [run_fail h]

/-- What every turn that does not fail preserves holds at the end of a run without an error. -/
theorem run_preserves_of_none {I : σ → Prop}
    (hturn : ∀ s a t, I s → (∃ s' rest e, m.turn s a t = .fail s' rest e) ∨ I (m.turn s a t).state) (hs : I s)
    (herror : (m.run s t).error = none) : I (m.run s t).state := by
  induction s, t using run.induct m with
  | case1 s => rwa [run_nil]
  | case2 s a t s' rest h ih =>
      rw [run_next h] at herror ⊢
      rcases hturn s a t hs with ⟨s'', rest'', e, hfail⟩ | hnext
      · rw [h] at hfail
        cases hfail
      · rw [h] at hnext
        exact ih hnext herror
  | case3 s a t s' rest h =>
      rw [run_stop h]
      rcases hturn s a t hs with ⟨s'', rest'', e, hfail⟩ | hstop
      · rw [h] at hfail
        cases hfail
      · rwa [h] at hstop
  | case4 s a t s' rest e h =>
      rw [run_fail h] at herror
      cases herror

/-- Two machines that take the same turns until one of them fails with `e`. -/
theorem run_eq_unless {m' : Machine σ α ε} {e : ε}
    (hturn : ∀ s a t, (∃ s' rest, m.turn s a t = .fail s' rest e) ∨ m.turn s a t = m'.turn s a t)
    (herror : (m.run s t).error ≠ some e) : m.run s t = m'.run s t := by
  induction s, t using run.induct m with
  | case1 s => rw [run_nil, run_nil]
  | case2 s a t s' rest h ih =>
      rw [run_next h] at herror ⊢
      rcases hturn s a t with ⟨s'', rest'', hfail⟩ | hsame
      · rw [h] at hfail
        cases hfail
      · rw [h] at hsame
        rw [run_next hsame.symm]
        exact ih herror
  | case3 s a t s' rest h =>
      rcases hturn s a t with ⟨s'', rest'', hfail⟩ | hsame
      · rw [h] at hfail
        cases hfail
      · rw [h] at hsame
        rw [run_stop h, run_stop hsame.symm]
  | case4 s a t s' rest e' h =>
      rcases hturn s a t with ⟨s'', rest'', hfail⟩ | hsame
      · rw [h] at hfail
        cases hfail
        rw [run_fail h] at herror
        exact absurd rfl herror
      · rw [h] at hsame
        rw [run_fail h, run_fail hsame.symm]

theorem parse_eq_unless {m' : Machine σ α ε} {e : ε} {lastError : σ → Option ε} {failWith : σ → ε → σ}
    (hturn : ∀ s a t, (∃ s' rest, m.turn s a t = .fail s' rest e) ∨ m.turn s a t = m'.turn s a t)
    (herror : (m.parse lastError failWith s t).error ≠ some e) :
    m.parse lastError failWith s t = m'.parse lastError failWith s t := by
  rw [parse] at herror ⊢
  rw [parse]
  cases hlast : lastError s with
  | some e' => rfl
  | none =>
      rw [hlast] at herror
      have hrun : (m.run s t).error ≠ some e := by
        intro hfail
        simp only [hfail] at herror
        exact herror rfl
      simp only [run_eq_unless hturn hrun]

/-- An error is the one of a turn. -/
theorem run_error (h : (m.run s t).error = some e) : ∃ s₀ a t₀ rest, m.turn s₀ a t₀ = .fail (m.run s t).state rest e := by
  induction s, t using run.induct m with
  | case1 s =>
      rw [run_nil] at h
      cases h
  | case2 s a t s' rest hturn ih =>
      rw [run_next hturn] at h ⊢
      exact ih h
  | case3 s a t s' rest hturn =>
      rw [run_stop hturn] at h
      cases h
  | case4 s a t s' rest e' hturn =>
      rw [run_fail hturn] at h ⊢
      cases h
      exact ⟨s, a, t, rest, hturn⟩

/-- What a run leaves is the end of the text. -/
theorem run_suffix (hturn : ∀ s a t, (m.turn s a t).rest <:+ a :: t) : (m.run s t).rest <:+ t := by
  induction s, t using run.induct m with
  | case1 s =>
      have hnil : (m.run s []).rest = [] := by rw [run_nil]
      exact ⟨[], hnil⟩
  | case2 s a t s' rest h ih =>
      have hnext := hturn s a t
      rw [h] at hnext
      rw [run_next h]
      exact ih.trans hnext
  | case3 s a t s' rest h =>
      have hstop := hturn s a t
      rw [h] at hstop
      rwa [run_stop h]
  | case4 s a t s' rest e h =>
      have hfail := hturn s a t
      rw [h] at hfail
      rwa [run_fail h]

theorem parse_suffix {lastError : σ → Option ε} {failWith : σ → ε → σ} (hturn : ∀ s a t, (m.turn s a t).rest <:+ a :: t) :
    (m.parse lastError failWith s t).rest <:+ t := by
  rw [parse]
  cases lastError s with
  | some e => exact List.suffix_refl _
  | none =>
      cases herror : (m.run s t).error <;> simpa only [herror] using run_suffix hturn

theorem parse_error {lastError : σ → Option ε} {failWith : σ → ε → σ} (hlast : lastError s = none) :
    (m.parse lastError failWith s t).error = (m.run s t).error := by
  rw [parse, hlast]
  cases herror : (m.run s t).error <;> simp only [herror]

theorem parse_of_none {lastError : σ → Option ε} {failWith : σ → ε → σ} (hlast : lastError s = none)
    (herror : (m.run s t).error = none) : m.parse lastError failWith s t = m.run s t := by
  simp only [parse, hlast, herror]

/-- `W` says that the loop is left before the end of the text, with no error and in no state of `D`. -/
structure Waits (m : Machine σ α ε) (D : σ → Prop) (W : σ → List α → Prop) : Prop where
  nil (s : σ) : ¬W s []
  turn (s : σ) (a : α) (t : List α) : W s (a :: t) ↔ (m.turn s a t).Waits D W

theorem Waits.iff {D : σ → Prop} {W : σ → List α → Prop} (h : m.Waits D W) (s : σ) (t : List α) :
    W s t ↔ (m.run s t).error = none ∧ (m.run s t).rest ≠ [] ∧ ¬D (m.run s t).state := by
  induction s, t using run.induct m with
  | case1 s =>
      rw [run_nil]
      exact ⟨fun hw => absurd hw (h.nil s), fun hw => absurd rfl hw.2.1⟩
  | case2 s a t s' rest hturn ih => rw [run_next hturn, h.turn, hturn, ← ih, Turn.Waits]
  | case3 s a t s' rest hturn =>
      rw [run_stop hturn, h.turn, hturn]
      exact (and_iff_right rfl).symm
  | case4 s a t s' rest e hturn =>
      rw [run_fail hturn, h.turn, hturn]
      exact ⟨False.elim, nofun⟩

/-- Without an error there is no lasting one. -/
theorem parse_lastError {lastError : σ → Option ε} {failWith : σ → ε → σ}
    (hkeeps : ∀ s a t, lastError s = none → lastError (m.turn s a t).state = none)
    (h : (m.parse lastError failWith s t).error = none) : lastError (m.parse lastError failWith s t).state = none := by
  rw [parse] at h ⊢
  cases hlast : lastError s with
  | some e =>
      rw [hlast] at h
      cases h
  | none =>
      rw [hlast] at h
      cases herror : (m.run s t).error with
      | none =>
          simp only [herror]
          exact run_preserves hkeeps hlast
      | some e =>
          simp only [herror] at h
          cases h

/-- Where a parser with lasting errors leaves text behind. -/
theorem Waits.parse_iff {D : σ → Prop} {W : σ → List α → Prop} {lastError : σ → Option ε} {failWith : σ → ε → σ}
    (h : m.Waits (fun s => D s ∨ lastError s ≠ none) W)
    (hkeeps : ∀ s a t, lastError s = none → lastError (m.turn s a t).state = none)
    (hlasting : ∀ s t, lastError s ≠ none → ¬W s t) (s : σ) (t : List α) :
    W s t ↔ (m.parse lastError failWith s t).error = none ∧ (m.parse lastError failWith s t).rest ≠ [] ∧
      ¬D (m.parse lastError failWith s t).state := by
  rw [parse]
  cases hlast : lastError s with
  | some e => exact iff_of_false (hlasting s t (by rw [hlast]; nofun)) nofun
  | none =>
      have hnone : lastError (m.run s t).state = none := run_preserves hkeeps hlast
      rw [h.iff]
      simp only [hnone, ne_eq, not_true_eq_false, or_false]
      cases herror : (m.run s t).error with
      | none => simp [herror]
      | some e => simp

end Machine

/-! ## Longer texts -/

/-- The same, up to the text behind an error. -/
structure Outcome.Agrees (o o' : Outcome σ α ε) : Prop where
  state : o.state = o'.state
  error : o.error = o'.error
  rest : o.error = none → o.rest = o'.rest

namespace Outcome.Agrees

variable {o o' o'' : Outcome σ α ε}

theorem refl (o : Outcome σ α ε) : o.Agrees o := ⟨rfl, rfl, fun _ => rfl⟩

theorem symm (h : o.Agrees o') : o'.Agrees o :=
  ⟨h.state.symm, h.error.symm, fun hnone => (h.rest (h.error.trans hnone)).symm⟩

theorem trans (h : o.Agrees o') (h' : o'.Agrees o'') : o.Agrees o'' :=
  ⟨h.state.trans h'.state, h.error.trans h'.error, fun hnone => (h.rest hnone).trans (h'.rest (h.error ▸ hnone))⟩

theorem eq_of_none (h : o.Agrees o') (hnone : o'.error = none) : o = o' := by
  obtain ⟨s, rest, e⟩ := o
  obtain ⟨s', rest', e'⟩ := o'
  obtain ⟨rfl, rfl, hrest⟩ := h
  obtain rfl := hrest hnone
  rfl

end Outcome.Agrees

/-- The same, up to the text behind an error. -/
inductive Turn.Agrees : Turn σ α ε → Turn σ α ε → Prop where
  | same (x : Turn σ α ε) : Turn.Agrees x x
  | fail (s : σ) (rest rest' : List α) (e : ε) : Turn.Agrees (.fail s rest e) (.fail s rest' e)

/-- How the turn on a text goes on when there is more behind the text. -/
inductive Machine.Resumes (m : Machine σ α ε) (s : σ) (a : α) (t : List α) : Prop where
  /-- It does not look at what is behind. -/
  | shift {s' : σ} {rest : List α} (h : m.turn s a t = .next s' rest)
    (hmore : ∀ u, m.turn s a (t ++ u) = .next s' (rest ++ u))
  /-- It ends the loop for good. -/
  | final {s' : σ} {rest : List α} (h : m.turn s a t = .stop s' rest)
    (hmore : ∀ u, m.turn s a (t ++ u) = .stop s' (rest ++ u)) (hfinal : ∀ b u, m.turn s' b u = .stop s' (b :: u))
  /-- It leaves everything as it is. -/
  | wait (h : m.turn s a t = .stop s (a :: t))
  /-- It takes a part of what it looks for. -/
  | part {s' : σ} (h : m.turn s a t = .next s' [] ∨ m.turn s a t = .stop s' [])
    (hmore : ∀ b u, (m.turn s a (t ++ b :: u)).Agrees (m.turn s' b u))
  | fail {s' : σ} {rest : List α} {e : ε} (h : m.turn s a t = .fail s' rest e)
    (hmore : ∀ u, ∃ rest, m.turn s a (t ++ u) = .fail s' rest e)

namespace Machine

variable {m : Machine σ α ε} {s : σ}

theorem run_agrees {s' : σ} {a b : α} {t u : List α} (h : (m.turn s a t).Agrees (m.turn s' b u)) :
    (m.run s (a :: t)).Agrees (m.run s' (b :: u)) := by
  generalize hx : m.turn s a t = x at h
  generalize hy : m.turn s' b u = y at h
  cases h with
  | same x =>
      cases x with
      | next s'' rest =>
          rw [run_next hx, run_next hy]
          exact .refl _
      | stop s'' rest =>
          rw [run_stop hx, run_stop hy]
          exact .refl _
      | fail s'' rest e =>
          rw [run_fail hx, run_fail hy]
          exact .refl _
  | fail s'' rest rest' e =>
      rw [run_fail hx, run_fail hy]
      exact ⟨rfl, rfl, nofun⟩

/-- A turn that takes a part of what it looks for goes on with the rest. -/
theorem run_part {s' : σ} {a : α} {t : List α} (h : m.turn s a t = .next s' [] ∨ m.turn s a t = .stop s' [])
    (hmore : ∀ b u, (m.turn s a (t ++ b :: u)).Agrees (m.turn s' b u)) (u : List α) :
    (m.run s (a :: t)).state = s' ∧ (m.run s (a :: t)).rest = [] ∧ (m.run s (a :: t)).error = none ∧
      (m.run s (a :: t ++ u)).Agrees (m.run s' u) := by
  have hrun : m.run s (a :: t) = ⟨s', [], none⟩ := by
    rcases h with h | h
    · rw [run_next h, run_nil]
    · rw [run_stop h]
  refine ⟨by rw [hrun], by rw [hrun], by rw [hrun], ?_⟩
  cases u with
  | nil =>
      rw [List.append_nil, hrun, run_nil]
      exact .refl _
  | cons b u => exact run_agrees (hmore b u)

/-- A run on a longer text goes on where the run on the text ends. -/
theorem run_append (hresumes : ∀ s a t, m.Resumes s a t) (t u : List α) :
    ((m.run s t).error = none → (m.run s (t ++ u)).Agrees (m.run (m.run s t).state ((m.run s t).rest ++ u))) ∧
    ((m.run s t).error ≠ none → (m.run s (t ++ u)).Agrees (m.run s t)) := by
  induction s, t using run.induct m with
  | case1 s =>
      rw [run_nil]
      exact ⟨fun _ => .refl _, fun h => absurd rfl h⟩
  | case2 s a t s' rest hturn ih =>
      cases hresumes s a t with
      | shift h hmore =>
          rw [hturn] at h
          cases h
          rw [run_next hturn, List.cons_append, run_next (hmore u)]
          exact ih
      | final h => rw [hturn] at h; cases h
      | wait h => rw [hturn] at h; cases h
      | part h hmore =>
          obtain ⟨hstate, hrest, herror, hagrees⟩ := run_part h hmore u
          rw [hstate, hrest, herror]
          exact ⟨fun _ => hagrees, fun h => absurd rfl h⟩
      | fail h => rw [hturn] at h; cases h
  | case3 s a t s' rest hturn =>
      cases hresumes s a t with
      | shift h => rw [hturn] at h; cases h
      | final h hmore hfinal =>
          rw [hturn] at h
          cases h
          have hrun : ∀ x, m.run s' x = ⟨s', x, none⟩ := by
            intro x
            cases x with
            | nil => exact run_nil
            | cons b x => exact run_stop (hfinal b x)
          rw [run_stop hturn, List.cons_append, run_stop (hmore u), hrun]
          exact ⟨fun _ => .refl _, fun h => absurd rfl h⟩
      | wait h =>
          rw [hturn] at h
          cases h
          rw [run_stop hturn]
          exact ⟨fun _ => .refl _, fun h => absurd rfl h⟩
      | part h hmore =>
          obtain ⟨hstate, hrest, herror, hagrees⟩ := run_part h hmore u
          rw [hstate, hrest, herror]
          exact ⟨fun _ => hagrees, fun h => absurd rfl h⟩
      | fail h => rw [hturn] at h; cases h
  | case4 s a t s' rest e hturn =>
      rw [run_fail hturn]
      refine ⟨nofun, fun _ => ?_⟩
      cases hresumes s a t with
      | shift h => rw [hturn] at h; cases h
      | final h => rw [hturn] at h; cases h
      | wait h => rw [hturn] at h; cases h
      | part h => rcases h with h | h <;> rw [hturn] at h <;> cases h
      | fail h hmore =>
          rw [hturn] at h
          cases h
          obtain ⟨rest', hfail⟩ := hmore u
          rw [List.cons_append, run_fail hfail]
          exact ⟨rfl, rfl, nofun⟩

end Machine

/-! ## Pieces of a text -/

/-- A parser for which a text in two pieces is one text. -/
def Incremental (parse : σ → List α → Outcome σ α ε) : Prop :=
  ∀ s t u, (parse s (t ++ u)).Agrees (parse (parse s t).state ((parse s t).rest ++ u))

/-- A parser that takes turns, of which none brings an error about that is not reported. -/
theorem Machine.incremental {m : Machine σ α ε} {lastError : σ → Option ε} {failWith : σ → ε → σ}
    (hresumes : ∀ s a t, m.Resumes s a t)
    (hfail : ∀ {s a t s' rest e}, m.turn s a t = .fail s' rest e → lastError (failWith s' e) = some e)
    (hkeeps : ∀ s a t, lastError s = none → lastError (m.turn s a t).state = none) :
    Incremental (m.parse lastError failWith) := by
  have hparse : ∀ s t, lastError s = none → m.parse lastError failWith s t =
      match (m.run s t).error with
      | none => m.run s t
      | some e => ⟨failWith (m.run s t).state e, (m.run s t).rest, some e⟩ := by
    intro s t h
    rw [parse, h]
  have hlasting : ∀ s t e, lastError s = some e → m.parse lastError failWith s t = ⟨s, t, some e⟩ := by
    intro s t e h
    rw [parse, h]
  intro s t u
  cases hlast : lastError s with
  | some e =>
      rw [hlasting s _ e hlast, hlasting s t e hlast, hlasting s _ e hlast]
      exact .refl _
  | none =>
      obtain ⟨hmore, hsame⟩ := @run_append _ _ _ m s hresumes t u
      cases herror : (m.run s t).error with
      | none =>
          have h := hmore herror
          rw [hparse s t hlast, herror, hparse s _ hlast, hparse _ _ (run_preserves hkeeps hlast), h.error]
          cases herror' : (m.run (m.run s t).state ((m.run s t).rest ++ u)).error with
          | none => exact h
          | some e => exact ⟨congrArg (failWith · e) h.state, rfl, nofun⟩
      | some e =>
          have h := hsame (by rw [herror]; nofun)
          obtain ⟨_, _, _, _, hturn⟩ := run_error herror
          rw [hparse s t hlast, herror, hparse s _ hlast, h.error, herror, hlasting _ _ e (hfail hturn)]
          exact ⟨congrArg (failWith · e) h.state, rfl, nofun⟩

namespace Incremental

variable {parse : σ → List α → Outcome σ α ε} {s : σ} {t : List α} {e : ε}

/-- More text behind an error. -/
theorem append_error (h : Incremental parse) (hlasting : ∀ u, (parse (parse s t).state u).state = (parse s t).state ∧
    (parse (parse s t).state u).error = some e) (u : List α) :
    (parse s (t ++ u)).state = (parse s t).state ∧ (parse s (t ++ u)).error = some e := by
  obtain ⟨hstate, herror⟩ := hlasting ((parse s t).rest ++ u)
  exact ⟨(h s t u).state.trans hstate, (h s t u).error.trans herror⟩

/-- More text behind the end of what is parsed. -/
theorem append_done (h : Incremental parse) (hdone : ∀ u, parse (parse s t).state u = ⟨(parse s t).state, u, none⟩)
    (u : List α) : parse s (t ++ u) = ⟨(parse s t).state, (parse s t).rest ++ u, none⟩ := by
  have hagrees := h s t u
  rw [hdone] at hagrees
  exact hagrees.eq_of_none rfl

/-- More text behind a text that is consumed. -/
theorem append_rest (h : Incremental parse) (hrest : (parse s t).rest = []) (u : List α) :
    (parse s (t ++ u)).Agrees (parse (parse s t).state u) := by
  have hagrees := h s t u
  rwa [hrest, List.nil_append] at hagrees

end Incremental

/-- It makes no difference in which pieces a text is given to an incremental parser. -/
theorem Incremental.feed_agrees {parse : σ → List α → Outcome σ α ε} (h : Incremental parse) {s : σ}
    (hnil : parse s [] = ⟨s, [], none⟩) (pieces : List (List α)) :
    (feed parse ⟨s, [], none⟩ pieces).Agrees (parse s pieces.flatten) := by
  have hbehind : ∀ (pieces : List (List α)) (s : σ) (t : List α),
      (feed parse (parse s t) pieces).Agrees (parse s (t ++ pieces.flatten)) := by
    intro pieces
    induction pieces with
    | nil =>
        intro s t
        rw [List.flatten_nil, List.append_nil]
        exact .refl _
    | cons piece pieces ih =>
        intro s t
        rw [List.flatten_cons, ← List.append_assoc]
        have hnext := ih (parse s t).state ((parse s t).rest ++ piece)
        have hwhole := h s t (piece ++ pieces.flatten)
        rw [← List.append_assoc, ← List.append_assoc] at hwhole
        exact hnext.trans hwhole.symm
  have := hbehind pieces s []
  rwa [hnil] at this

/-! ## Parsers in turns -/

/-- An incremental parser that is left at the end of the text, when it is done, or with an error. -/
structure Parses {τ : Type*} (parse : τ → List α → Outcome τ α ε) (D : τ → Prop) : Prop where
  incremental : Incremental parse
  done {s : τ} (h : D s) (t : List α) : parse s t = ⟨s, t, none⟩
  all {s : τ} {t : List α} (h : (parse s t).error = none) : (parse s t).rest = [] ∨ D (parse s t).state
  /-- Its errors are lasting. -/
  lasting {s : τ} {t : List α} {e : ε} (h : (parse s t).error = some e) (u : List α) :
    (parse (parse s t).state u).state = (parse s t).state ∧ (parse (parse s t).state u).error = some e

/-- A turn that calls a parser goes on with another call. -/
theorem Parses.resumes {τ : Type*} {parse : τ → List α → Outcome τ α ε} {D : τ → Prop} (h : Parses parse D)
    {m : Machine σ α ε} {s : σ} {x : τ} {a : α} {f : τ → σ} (hturn : ∀ t, m.turn s a t = (parse x (a :: t)).turn f)
    (t : List α) (hnext : (parse x (a :: t)).error = none → ¬D (parse x (a :: t)).state → ∀ b u,
      m.turn (f (parse x (a :: t)).state) b u = (parse (parse x (a :: t)).state (b :: u)).turn f) : m.Resumes s a t := by
  have hmore := fun u => h.incremental x (a :: t) u
  cases herror : (parse x (a :: t)).error with
  | some e =>
      have hfail : m.turn s a t = .fail (f (parse x (a :: t)).state) (parse x (a :: t)).rest e := by
        rw [hturn, Outcome.turn, herror]
      refine .fail hfail fun u => ⟨(parse x (a :: (t ++ u))).rest, ?_⟩
      obtain ⟨hstate, hlast⟩ := h.lasting herror ((parse x (a :: t)).rest ++ u)
      have hagrees := hmore u
      rw [List.cons_append] at hagrees
      rw [hturn, Outcome.turn, hagrees.error, hlast, hagrees.state, hstate]
  | none =>
      have hturn' : m.turn s a t = .next (f (parse x (a :: t)).state) (parse x (a :: t)).rest := by
        rw [hturn, Outcome.turn, herror]
      by_cases hdone : D (parse x (a :: t)).state
      · refine .shift hturn' fun u => ?_
        have hagrees := hmore u
        rw [h.done hdone, List.cons_append] at hagrees
        rw [hturn, hagrees.eq_of_none rfl]
        rfl
      · have hrest := (h.all herror).resolve_right hdone
        rw [hrest] at hturn'
        refine .part (.inl hturn') fun b u => ?_
        have hagrees := hmore (b :: u)
        rw [hrest, List.nil_append, List.cons_append] at hagrees
        rw [hturn, hnext herror hdone, Outcome.turn, Outcome.turn]
        cases herror' : (parse (parse x (a :: t)).state (b :: u)).error with
        | none =>
            rw [hagrees.eq_of_none herror', herror']
            exact .same _
        | some e =>
            rw [hagrees.error, herror', hagrees.state]
            exact .fail _ _ _ _

/-- An error that a parser reports is reported by every call behind. -/
theorem Machine.parse_lasting {m : Machine σ α ε} {lastError : σ → Option ε} {failWith : σ → ε → σ}
    (hfail : ∀ {s a t s' rest e}, m.turn s a t = .fail s' rest e → lastError (failWith s' e) = some e) {s : σ} {t : List α}
    {e : ε} (h : (m.parse lastError failWith s t).error = some e) (u : List α) :
    (m.parse lastError failWith (m.parse lastError failWith s t).state u).state = (m.parse lastError failWith s t).state ∧
      (m.parse lastError failWith (m.parse lastError failWith s t).state u).error = some e := by
  have hlast : lastError (m.parse lastError failWith s t).state = some e := by
    rw [parse] at h ⊢
    cases hs : lastError s with
    | some e' =>
        rw [hs] at h
        cases h
        exact hs
    | none =>
        rw [hs] at h
        cases herror : (m.run s t).error with
        | none =>
            simp only [herror] at h
            cases h
        | some e' =>
            simp only [herror] at h ⊢
            cases h
            obtain ⟨_, _, _, _, hturn⟩ := run_error herror
            exact hfail hturn
  generalize (m.parse lastError failWith s t).state = s' at hlast ⊢
  rw [parse, hlast]
  exact ⟨rfl, rfl⟩

/-- A parser that leaves its loop at once consumes nothing. -/
theorem Machine.parse_stop {m : Machine σ α ε} {lastError : σ → Option ε} {failWith : σ → ε → σ} {s : σ}
    (hstop : ∀ a t, m.turn s a t = .stop s (a :: t)) (t : List α) :
    m.parse lastError failWith s t = ⟨s, t, lastError s⟩ := by
  rw [parse]
  cases lastError s with
  | some e => rfl
  | none =>
      cases t with
      | nil => rw [run_nil]
      | cons a t => rw [run_stop (hstop a t)]

/-- A parser that takes turns, of which none leaves the loop before the end of the text. -/
theorem Machine.parses {m : Machine σ α ε} {lastError : σ → Option ε} {failWith : σ → ε → σ} {D : σ → Prop}
    (hresumes : ∀ s a t, m.Resumes s a t)
    (hwaits : m.Waits (fun s => D s ∨ lastError s ≠ none) fun _ _ => False)
    (hfail : ∀ {s a t s' rest e}, m.turn s a t = .fail s' rest e → lastError (failWith s' e) = some e)
    (hkeeps : ∀ s a t, lastError s = none → lastError (m.turn s a t).state = none)
    (hdone : ∀ s, D s → lastError s = none ∧ ∀ a t, m.turn s a t = .stop s (a :: t)) :
    Parses (m.parse lastError failWith) D where
  incremental := Machine.incremental hresumes hfail hkeeps
  done := by
    intro s h t
    obtain ⟨hlast, hstop⟩ := hdone s h
    rw [parse_stop hstop, hlast]
  all := by
    intro s t h
    by_contra hnot
    obtain ⟨hrest, hstate⟩ := not_or.1 hnot
    exact (hwaits.parse_iff hkeeps (fun _ _ _ => id) s t).2 ⟨h, hrest, hstate⟩
  lasting h u := parse_lasting hfail h u

end

end Rad.Lib
