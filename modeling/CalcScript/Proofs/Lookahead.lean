/-
`Proofs/Lookahead.lean` -- one token decides.

Every production looks at one token before it takes it or leaves it. So what it has read
up to some token it reads again in front of any other text that begins with that token,
and where it gives up at a token, it gives up at that token whatever stands behind it.
And it gives up no earlier than it has to: what it has read until then can be completed.

`Tracks` says both of one run. It is proved for each production from the steps that it is
made of, by one rule for each kind of step; the depth is enough all the way, so that no
run ends for the lack of it.
-/
import CalcScript.Proofs.Separation

set_option autoImplicit false

namespace CalcScript

open Grammar

/-! ## 1. Cursors with the same token ahead -/

namespace Cursor

variable {c x x' : Cursor} {ts us : List Token}

theorem current_before_congr (h : x'.current = x.current) (ts : List Token) :
    (x'.before ts).current = (x.before ts).current := by
  cases ts with
  | nil => exact h
  | cons t ts => rfl

theorem before_inj (h : x.before ts = x.before us) : ts = us := by
  have hrest := congrArg Cursor.rest h
  exact List.append_cancel_right hrest

theorem length_le_of_before (h : c = x.before ts) : x.rest.length ≤ c.rest.length := by
  rw [h, before, List.length_append]
  exact Nat.le_add_left _ _

theorem length_lt_of_before_cons {t : Token} (h : c = x.before (t :: ts)) :
    x.rest.length < c.rest.length := by
  rw [h, before, List.length_append, List.length_cons]
  omega

theorem kind_congr (h : x'.current = x.current) : x'.kind = x.kind := congrArg Token.kind h

theorem pos_congr (h : x'.current = x.current) : x'.pos = x.pos := congrArg Token.pos h

/-- A table of tokens that leaves out the end tells a token from it. -/
theorem ne_finish_of_some {table : Token.Kind → Option Primitive} {op : Primitive}
    (h : table c.kind = some op) (hend : table .finish = none) : c.kind ≠ .finish := by
  intro hkind
  rw [hkind, hend] at h
  cases h

theorem atSequenceEnd_congr (h : x'.current = x.current) :
    x'.atSequenceEnd = x.atSequenceEnd := by
  rw [atSequenceEnd, kind_congr h]
  rfl

/-- A word can be taken, if the token behind it is one. -/
theorem advance_before (t : Token) (h : x.kind.isWord) : (x.before [t]).advance = .ok x := by
  simp only [advance, before, List.cons_append, List.nil_append, List.tail_cons, check]
  split
  · next m hm =>
    have hx : x.kind = .malformed m := hm
    rw [hx] at h
    cases h
  · rfl

end Cursor

/-! ## 2. Runs -/

/-- A problem of the program as such. -/
def Problem.isSyntax : Problem → Bool
  | .malformed _ | .tooDeep => false
  | _ => true

namespace Parser

variable {α β : Type}

/-- A production, with its depth. -/
abbrev Production (α : Type) : Type := Nat → Cursor → Read (α × Cursor)

/-- From depth `n` on the production reads the words `ts` as `a` wherever the token at `x`
follows. -/
structure Replays (F : Production α) (n : Nat) (ts : List Token) (x : Cursor) (a : α) : Prop where
  words : ∀ t ∈ ts, t.kind.isWord
  next : x.kind.isWord
  again : ∀ m, n ≤ m → ∀ x' : Cursor, x'.current = x.current → F m (x'.before ts) = .ok (a, x')

/-- The production gives up at `x`, behind the words `ts`. Either a malformed token stands
there; or `ts` could have gone on, which is `K`, but from depth `n` on never with this
token. -/
inductive GivesUp (K : List Token → Prop) (F : Production α) (n : Nat) (ts : List Token)
    (x : Cursor) : Problem → Prop
  | malformed {p} (h : x.kind = .malformed p) : GivesUp K F n ts x (.malformed p)
  | offended {problem} (hnext : x.kind.isWord) (hproblem : problem.isSyntax) (hK : K ts)
      (hnever : ∀ m, n ≤ m → ∀ x' : Cursor, x'.current = x.current →
        ∀ r, F m (x'.before ts) ≠ .ok r) : GivesUp K F n ts x problem

/-- What the run at depth `n` from `c` says about runs from there on. -/
structure Tracks (K : List Token → Prop) (F : Production α) (n : Nat) (c : Cursor) : Prop where
  ok : ∀ {a x}, F n c = .ok (a, x) → ∃ ts, c = x.before ts ∧ Replays F n ts x a
  error : ∀ {problem pos}, F n c = .error ⟨problem, pos⟩ → ∃ ts x, c = x.before ts ∧
    (∀ t ∈ ts, t.kind.isWord) ∧ pos = x.pos ∧ GivesUp K F n ts x problem

theorem GivesUp.imp {K K' : List Token → Prop} {F : Production α} {G : Production β} {n n' : Nat}
    {ts us : List Token} {x : Cursor} {problem : Problem} (h : GivesUp K F n ts x problem)
    (hK : K ts → K' us)
    (hG : ∀ m, n' ≤ m → ∀ x' : Cursor, x'.current = x.current →
      ∀ r, G m (x'.before us) = .ok r → ∃ k a, n ≤ k ∧ F k (x'.before ts) = .ok a) :
    GivesUp K' G n' us x problem := by
  cases h with
  | malformed hkind => exact .malformed hkind
  | offended hnext hproblem hk hnever =>
    refine .offended hnext hproblem (hK hk) fun m hm x' hx' r hr => ?_
    obtain ⟨k, a, hk, ha⟩ := hG m hm x' hx' r hr
    exact hnever k hk x' hx' a ha

namespace Tracks

variable {K K' : List Token → Prop} {F H : Production α} {n : Nat} {c : Cursor}

theorem mono (h : Tracks K F n c) (hK : ∀ ts, K ts → K' ts) : Tracks K' F n c := by
  refine ⟨h.ok, fun hrun => ?_⟩
  obtain ⟨ts, x, hc, hts, hpos, hgives⟩ := h.error hrun
  exact ⟨ts, x, hc, hts, hpos, hgives.imp (hK ts) fun m hm x' _ r hr => ⟨m, r, hm, hr⟩⟩

/-- What a production does where the same token is ahead is all that matters. -/
theorem of_current (hF : ∀ k y, y.current = c.current → F k y = H k y) (h : Tracks K H n c) :
    Tracks K F n c := by
  have hagain : ∀ {m ts} {x x' : Cursor}, c = x.before ts → x'.current = x.current →
      F m (x'.before ts) = H m (x'.before ts) := by
    intro m ts x x' hc hx'
    refine hF m _ ?_
    rw [hc, Cursor.current_before_congr hx']
  constructor
  · intro a x hrun
    rw [hF n c rfl] at hrun
    obtain ⟨ts, hc, hwords, hnext, hreplay⟩ := h.ok hrun
    refine ⟨ts, hc, hwords, hnext, fun m hm x' hx' => ?_⟩
    rw [hagain hc hx', hreplay m hm x' hx']
  · intro problem pos hrun
    rw [hF n c rfl] at hrun
    obtain ⟨ts, x, hc, hwords, hpos, hgives⟩ := h.error hrun
    refine ⟨ts, x, hc, hwords, hpos, hgives.imp id fun m hm x' hx' r hr => ?_⟩
    rw [hagain hc hx'] at hr
    exact ⟨m, r, hm, hr⟩

/-- Depths may be counted from one. -/
theorem succ (h : Tracks K (fun k => F (k + 1)) n c) : Tracks K F (n + 1) c := by
  constructor
  · intro a x hrun
    obtain ⟨ts, hc, hwords, hnext, hagain⟩ := h.ok hrun
    refine ⟨ts, hc, hwords, hnext, fun m hm x' hx' => ?_⟩
    obtain ⟨k, rfl⟩ : ∃ k, m = k + 1 := ⟨m - 1, by omega⟩
    exact hagain k (by omega) x' hx'
  · intro problem pos hrun
    obtain ⟨ts, x, hc, hwords, hpos, hgives⟩ := h.error hrun
    refine ⟨ts, x, hc, hwords, hpos, hgives.imp id fun m hm x' hx' r hr => ?_⟩
    obtain ⟨k, rfl⟩ : ∃ k, m = k + 1 := ⟨m - 1, by omega⟩
    exact ⟨k, r, by omega, hr⟩

protected theorem pure (hc : c.kind.isWord) (a : α) : Tracks K (fun _ y => .ok (a, y)) n c := by
  refine ⟨?_, nofun⟩
  rintro a x ⟨⟩
  exact ⟨[], rfl, nofun, hc, fun _ _ x' _ => rfl⟩

theorem fail (problem : Problem) (hc : c.kind.isWord) (hproblem : problem.isSyntax) (hK : K []) :
    Tracks K (fun _ y => (y.fail problem : Read (α × Cursor))) n c := by
  refine ⟨nofun, ?_⟩
  rintro problem pos ⟨⟩
  exact ⟨[], c, rfl, nofun, rfl, .offended hc hproblem hK fun _ _ x' _ => nofun⟩

/-- One production after another. -/
theorem bind {G : Nat → α × Cursor → Read (β × Cursor)} (hF : Tracks K F n c)
    (hG : ∀ a x ts, F n c = .ok (a, x) → c = x.before ts → x.kind.isWord →
      Tracks (fun us => K (ts ++ us)) (fun k y => G k (a, y)) n x) :
    Tracks K (fun k y => F k y >>= G k) n c := by
  -- what the first part has read it reads again, wherever the second begins alike
  have hagain : ∀ {a ts us m} {x y y' : Cursor}, Replays F n ts x a → x = y.before us →
      n ≤ m → y'.current = y.current →
      (F m (y'.before (ts ++ us)) >>= G m) = G m (a, y'.before us) := by
    intro a ts us m x y y' hreplay hx hm hy'
    have hcurrent : (y'.before us).current = x.current := by
      rw [hx, Cursor.current_before_congr hy']
    rw [Cursor.before_append, hreplay.again m hm _ hcurrent]
    rfl
  constructor
  · intro b y hrun
    obtain ⟨⟨a, x⟩, hread, hrun⟩ := bind_eq_ok hrun
    obtain ⟨ts, hc, hreplay⟩ := hF.ok hread
    obtain ⟨us, hx, hreplay'⟩ := (hG a x ts hread hc hreplay.next).ok hrun
    refine ⟨ts ++ us, ?_, List.forall_mem_append.mpr ⟨hreplay.words, hreplay'.words⟩,
      hreplay'.next, fun m hm y' hy' => ?_⟩
    · rw [hc, hx, Cursor.before_append]
    · rw [hagain hreplay hx hm hy']
      exact hreplay'.again m hm y' hy'
  · intro problem pos hrun
    cases hread : F n c with
    | error err =>
      rw [hread] at hrun
      cases hrun
      obtain ⟨ts, x, hc, hts, hpos, hgives⟩ := hF.error hread
      refine ⟨ts, x, hc, hts, hpos, hgives.imp id fun m hm x' _ r hr => ?_⟩
      obtain ⟨a, ha, -⟩ := bind_eq_ok hr
      exact ⟨m, a, hm, ha⟩
    | ok result =>
      obtain ⟨a, x⟩ := result
      rw [hread] at hrun
      obtain ⟨ts, hc, hreplay⟩ := hF.ok hread
      obtain ⟨us, y, hx, hus, hpos, hgives⟩ := (hG a x ts hread hc hreplay.next).error hrun
      refine ⟨ts ++ us, y, ?_, List.forall_mem_append.mpr ⟨hreplay.words, hus⟩, hpos,
        hgives.imp id fun m hm y' hy' r hr => ?_⟩
      · rw [hc, hx, Cursor.before_append]
      · rw [hagain hreplay hx hm hy'] at hr
        exact ⟨m, r, hm, hr⟩

/-! ## 3. Taking tokens -/

variable {G : Production β}

/-- Taking a token fails only where the next one is malformed. -/
theorem advance_cases (hc : c.kind ≠ .finish) :
    (∃ y : Cursor, c = y.before [c.current] ∧ y.kind.isWord ∧ c.advance = .ok y) ∨
      ∃ (y : Cursor) (p : Malformed), c = y.before [c.current] ∧ y.kind = .malformed p ∧
        c.advance = .error ⟨.malformed p, y.pos⟩ := by
  obtain ⟨rest, finish⟩ := c
  cases rest with
  | nil => exact absurd rfl hc
  | cons t ts =>
    have hadvance : Cursor.advance ⟨t :: ts, finish⟩ = Cursor.check ⟨ts, finish⟩ := rfl
    rw [hadvance, Cursor.check]
    split
    · next p hp => exact .inr ⟨⟨ts, finish⟩, p, rfl, hp, rfl⟩
    · next hp =>
      refine .inl ⟨⟨ts, finish⟩, rfl, ?_, rfl⟩
      cases hkind : Cursor.kind ⟨ts, finish⟩ with
      | malformed p => exact absurd hkind (hp p)
      | _ => rfl

theorem advance (hc : c.kind.isWord) (hfinish : c.kind ≠ .finish)
    (hG : ∀ y, c = y.before [c.current] → y.kind.isWord →
      Tracks (fun us => K (c.current :: us)) G n y) :
    Tracks K (fun k y => y.advance >>= G k) n c := by
  -- with the token put back in front, only it is taken again
  have hagain : ∀ {m us} {x x' : Cursor}, (x.before us).kind.isWord → x'.current = x.current →
      ((x'.before (c.current :: us)).advance >>= G m) = G m (x'.before us) := by
    intro m us x x' hword hx'
    have hword' : (x'.before us).kind.isWord := by
      rwa [Cursor.kind, Cursor.current_before_congr hx']
    have hadvance := Cursor.advance_before c.current hword'
    rw [← Cursor.before_append, List.singleton_append] at hadvance
    rw [hadvance]
    rfl
  rcases advance_cases hfinish with ⟨y, hy, hword, hadvance⟩ | ⟨y, p, hy, hp, hadvance⟩
  · have htracks := hG y hy hword
    constructor
    · intro b z hrun
      rw [hadvance] at hrun
      obtain ⟨us, rfl, hreplay⟩ := htracks.ok hrun
      refine ⟨c.current :: us, hy, List.forall_mem_cons.mpr ⟨hc, hreplay.words⟩, hreplay.next,
        fun m hm x' hx' => ?_⟩
      rw [hagain hword hx']
      exact hreplay.again m hm x' hx'
    · intro problem pos hrun
      rw [hadvance] at hrun
      obtain ⟨us, x, rfl, hwords, hpos, hgives⟩ := htracks.error hrun
      refine ⟨c.current :: us, x, hy, List.forall_mem_cons.mpr ⟨hc, hwords⟩, hpos,
        hgives.imp id fun m hm x' hx' r hr => ?_⟩
      rw [hagain hword hx'] at hr
      exact ⟨m, r, hm, hr⟩
  · -- the cursor stops at a malformed token before anyone asks for it
    refine ⟨fun hrun => ?_, fun hrun => ?_⟩
    · rw [hadvance] at hrun
      cases hrun
    · rw [hadvance] at hrun
      cases hrun
      exact ⟨[c.current], y, hy, List.forall_mem_singleton.mpr hc, rfl, .malformed hp⟩

/-- A token is refused only after the next one has been looked at. -/
theorem advance_fail (problem : Problem) (hc : c.kind.isWord) (hfinish : c.kind ≠ .finish)
    (hproblem : problem.isSyntax) (hK : K []) :
    Tracks K (fun _ y => y.advance >>= fun _ => (y.fail problem : Read (β × Cursor))) n c := by
  refine ⟨fun hrun => ?_, fun hrun => ?_⟩
  · obtain ⟨y, -, hrun⟩ := bind_eq_ok hrun
    cases hrun
  · rcases advance_cases hfinish with ⟨y, -, -, hadvance⟩ | ⟨y, p, hy, hp, hadvance⟩
    · rw [hadvance] at hrun
      cases hrun
      refine ⟨[], c, rfl, nofun, rfl, .offended hc hproblem hK fun _ _ x' _ r hr => ?_⟩
      obtain ⟨y, -, hr⟩ := bind_eq_ok hr
      cases hr
    · rw [hadvance] at hrun
      cases hrun
      exact ⟨[c.current], y, hy, List.forall_mem_singleton.mpr hc, rfl, .malformed hp⟩

theorem takeSymbol {s : Symbol} (hc : c.kind.isWord) (hK : K [])
    (hG : ∀ y, c.kind = .symbol s → c = y.before [c.current] → y.kind.isWord →
      Tracks (fun us => K (c.current :: us)) G n y) :
    Tracks K (fun k y => y.takeSymbol s >>= G k) n c := by
  by_cases hkind : c.kind = .symbol s
  · refine of_current (fun k y hy => ?_) (advance hc (by simp [hkind]) fun y => hG y hkind)
    rw [Cursor.takeSymbol, Cursor.kind_congr hy, if_pos hkind]
  · refine of_current (fun k y hy => ?_) (fail (.expectedSymbol s) hc rfl hK)
    rw [Cursor.takeSymbol, Cursor.kind_congr hy, if_neg hkind]
    rfl

theorem takeKeyword {s : Keyword} (hc : c.kind.isWord) (hK : K [])
    (hG : ∀ y, c.kind = .keyword s → c = y.before [c.current] → y.kind.isWord →
      Tracks (fun us => K (c.current :: us)) G n y) :
    Tracks K (fun k y => y.takeKeyword s >>= G k) n c := by
  by_cases hkind : c.kind = .keyword s
  · refine of_current (fun k y hy => ?_) (advance hc (by simp [hkind]) fun y => hG y hkind)
    rw [Cursor.takeKeyword, Cursor.kind_congr hy, if_pos hkind]
  · refine of_current (fun k y hy => ?_) (fail (.expectedKeyword s) hc rfl hK)
    rw [Cursor.takeKeyword, Cursor.kind_congr hy, if_neg hkind]
    rfl

theorem takeName? (hc : c.kind.isWord) : Tracks K (fun _ y => y.takeName?) n c := by
  by_cases hkind : c.kind = .identifier
  · refine of_current (fun k y hy => ?_) (advance hc (by simp [hkind]) fun y _ hword =>
      .pure hword (some c.current.lexeme))
    rw [Cursor.takeName?, Cursor.kind_congr hy, hkind, hy]
    rfl
  · refine of_current (fun k y hy => ?_) (.pure hc none)
    rw [Cursor.takeName?, Cursor.kind_congr hy]
    split
    · next hname => exact absurd hname hkind
    · rfl

end Tracks

/-! ## 4. Completions -/

/-- The tokens can be completed to a phrase, by spelled ones. -/
def Completable (Φ : α → Phrase) (ts : List Token) : Prop :=
  ∃ us a, Derives (Φ a) (ts ++ us) ∧ ∀ t ∈ us, t.Spelled

namespace Completable

variable {Φ : α → Phrase} {Ψ : β → Phrase} {ts : List Token}

/-- What completes a part, with the tokens of the rest behind it, completes the whole. -/
theorem within (h : Completable Φ ts) (front behind : List Token)
    (hbehind : ∀ t ∈ behind, t.Spelled)
    (f : ∀ a us, Derives (Φ a) us → ∃ b, Derives (Ψ b) (front ++ (us ++ behind))) :
    Completable Ψ (front ++ ts) := by
  obtain ⟨us, a, hderives, hus⟩ := h
  obtain ⟨b, hb⟩ := f a (ts ++ us) hderives
  refine ⟨us ++ behind, b, ?_, List.forall_mem_append.mpr ⟨hus, hbehind⟩⟩
  simpa using hb

/-- The same behind a token. -/
theorem after (h : Completable Φ ts) {t : Token} (front behind : List Token)
    (hbehind : ∀ t ∈ behind, t.Spelled)
    (f : ∀ a us, Derives (Φ a) us → ∃ b, Derives (Ψ b) (front ++ t :: (us ++ behind))) :
    Completable Ψ (front ++ t :: ts) := by
  rw [List.append_cons]
  refine h.within (front ++ [t]) behind hbehind fun a us hus => ?_
  rw [← List.append_cons]
  exact f a us hus

theorem map (h : Completable Φ ts) (f : ∀ a us, Derives (Φ a) us → ∃ b, Derives (Ψ b) us) :
    Completable Ψ ts := by
  refine h.within [] [] nofun fun a us hus => ?_
  rw [List.append_nil]
  exact f a us hus

/-- What completes the last part completes the whole. -/
theorem last (h : Completable Φ ts) {t : Token} (front : List Token)
    (f : ∀ a us, Derives (Φ a) us → ∃ b, Derives (Ψ b) (front ++ t :: us)) :
    Completable Ψ (front ++ t :: ts) := by
  refine h.after front [] nofun fun a us hus => ?_
  rw [List.append_nil]
  exact f a us hus

theorem of_tokens {a : α} {us vs : List Token} (h : Derives (Φ a) vs) (hvs : vs = ts ++ us)
    (hus : ∀ t ∈ us, t.Spelled) : Completable Φ ts :=
  ⟨us, a, hvs ▸ h, hus⟩

theorem of_derives {a : α} (h : Derives (Φ a) ts) : Completable Φ ts :=
  ⟨[], a, by rwa [List.append_nil], nofun⟩

end Completable

/-- The tokens behind an operand that has been read can be completed. -/
def Continues (Φ Ψ : Expr → Phrase) (left : Expr) (ts : List Token) : Prop :=
  ∀ us, Derives (Φ left) us → Completable Ψ (us ++ ts)

/-- The tokens can be completed to a list with its closing bracket. -/
def ListCompletable (close : Symbol) (ts : List Token) : Prop :=
  ∃ us es vs t, ts ++ us = vs ++ [t] ∧ Derives (.list es) vs ∧ t.kind = .symbol close ∧
    ∀ t ∈ us, t.Spelled

/-- The same of the parameters of a function, which have to differ from those already
`seen`. -/
def ParametersCompletable (seen : List String) (ts : List Token) : Prop :=
  ∃ us names vs t, ts ++ us = vs ++ [t] ∧ Parameters names vs ∧ names.Nodup ∧
    (∀ name ∈ names, name ∉ seen) ∧ t.kind = .symbol .closeParen ∧ ∀ t ∈ us, t.Spelled

/-- Between two cursors stands what was read. -/
theorem Spans.derives {phrase : Phrase} {c x : Cursor} {ts : List Token} (h : Spans phrase c x)
    (hc : c = x.before ts) : Derives phrase ts := by
  obtain ⟨us, hus, hderives⟩ := h
  rwa [Cursor.before_inj (hc.symm.trans hus)]

namespace Tracks

variable {K : List Token → Prop} {n : Nat} {c : Cursor}

/-- A token and the operand behind it. -/
theorem operand {Φ : Expr → Phrase} {F : Production Expr}
    {G : Nat → Expr × Cursor → Read (β × Cursor)} (hc : c.kind.isWord)
    (hfinish : c.kind ≠ .finish)
    (hF : ∀ y, c = y.before [c.current] → y.kind.isWord → Tracks (Completable Φ) F n y)
    (hsound : ∀ {e y x}, F n y = .ok (e, x) → Spans (Φ e) y x)
    (hK : ∀ us, Completable Φ us → K (c.current :: us))
    (hG : ∀ e x us, Derives (Φ e) us → c = x.before (c.current :: us) → x.kind.isWord →
      Tracks (fun vs => K (c.current :: (us ++ vs))) (fun k y => G k (e, y)) n x) :
    Tracks K (fun k y => y.advance >>= fun y => F k y >>= G k) n c := by
  refine advance hc hfinish fun y hy hword => ?_
  refine bind ((hF y hy hword).mono hK) fun e x us hread hus hx => ?_
  refine hG e x us ((hsound hread).derives hus) ?_ hx
  rw [hus] at hy
  exact hy

/-- An operator and its right operand behind a left one, and then whatever follows. -/
theorem operator {Φ Ψ : Expr → Phrase} {F : Production Expr}
    {rest : Nat → Expr → Cursor → Read (Expr × Cursor)} {left : Expr} {f : Expr → Expr}
    (hc : c.kind.isWord) (hfinish : c.kind ≠ .finish)
    (hF : ∀ y, y.rest.length < c.rest.length → y.kind.isWord → Tracks (Completable Ψ) F n y)
    (hsound : ∀ {e y x}, F n y = .ok (e, x) → Spans (Ψ e) y x)
    (hrest : ∀ e x, x.rest.length < c.rest.length → x.kind.isWord →
      Tracks (Continues Φ Φ e) (rest · e) n x)
    (hderives : ∀ right ts us, Derives (Φ left) ts → Derives (Ψ right) us →
      Derives (Φ (f right)) (ts ++ c.current :: us)) :
    Tracks (Continues Φ Φ left)
      (fun k y => y.advance >>= fun y => F k y >>= fun p => rest k (f p.1) p.2) n c := by
  refine operand hc hfinish (fun y hy => hF y (Cursor.length_lt_of_before_cons hy)) hsound
    (fun us h ts hts => ?_) fun right x us hus hx hword => ?_
  · exact h.last _ fun right vs hvs => ⟨_, hderives right ts vs hts hvs⟩
  · -- what has been read so far is the left operand of what follows
    have htracks := hrest (f right) x (Cursor.length_lt_of_before_cons hx) hword
    refine htracks.mono fun vs h ts hts => ?_
    have hmore := h _ (hderives right ts us hts hus)
    rwa [List.append_assoc, List.cons_append] at hmore

end Tracks

/-! ## 5. The productions -/

/-- All productions keep track, if the depth is enough for the tokens ahead. -/
structure Local (n : Nat) : Prop where
  sequence {c : Cursor} (hc : c.kind.isWord) (hdepth : 16 * c.rest.length + 15 ≤ n) :
    Tracks (Completable .sequence) sequence n c
  statements {c : Cursor} (hc : c.kind.isWord) (hdepth : 16 * c.rest.length + 14 ≤ n) :
    Tracks (Completable .items) statements n c
  expression {c : Cursor} (hc : c.kind.isWord) (hdepth : 16 * c.rest.length + 13 ≤ n) :
    Tracks (Completable .expression) expression n c
  disjunction {c : Cursor} (hc : c.kind.isWord) (hdepth : 16 * c.rest.length + 12 ≤ n) :
    Tracks (Completable .disjunction) disjunction n c
  disjunctionRest {c : Cursor} {left : Expr} (hc : c.kind.isWord)
      (hdepth : 16 * c.rest.length + 1 ≤ n) :
    Tracks (Continues .disjunction .disjunction left) (disjunctionRest · left) n c
  conjunction {c : Cursor} (hc : c.kind.isWord) (hdepth : 16 * c.rest.length + 11 ≤ n) :
    Tracks (Completable .conjunction) conjunction n c
  conjunctionRest {c : Cursor} {left : Expr} (hc : c.kind.isWord)
      (hdepth : 16 * c.rest.length + 1 ≤ n) :
    Tracks (Continues .conjunction .conjunction left) (conjunctionRest · left) n c
  comparison {c : Cursor} (hc : c.kind.isWord) (hdepth : 16 * c.rest.length + 10 ≤ n) :
    Tracks (Completable .comparison) comparison n c
  sum {c : Cursor} (hc : c.kind.isWord) (hdepth : 16 * c.rest.length + 9 ≤ n) :
    Tracks (Completable .sum) sum n c
  sumRest {c : Cursor} {left : Expr} (hc : c.kind.isWord)
      (hdepth : 16 * c.rest.length + 1 ≤ n) :
    Tracks (Continues .sum .sum left) (sumRest · left) n c
  product {c : Cursor} (hc : c.kind.isWord) (hdepth : 16 * c.rest.length + 8 ≤ n) :
    Tracks (Completable .product) product n c
  productRest {c : Cursor} {left : Expr} (hc : c.kind.isWord)
      (hdepth : 16 * c.rest.length + 1 ≤ n) :
    Tracks (Continues .product .product left) (productRest · left) n c
  power {c : Cursor} (hc : c.kind.isWord) (hdepth : 16 * c.rest.length + 7 ≤ n) :
    Tracks (Completable .power) power n c
  term {c : Cursor} (hc : c.kind.isWord) (hdepth : 16 * c.rest.length + 6 ≤ n) :
    Tracks (Completable .term) term n c
  termRest {c : Cursor} {head : Expr} (hc : c.kind.isWord)
      (hdepth : 16 * c.rest.length + 1 ≤ n) :
    Tracks (Continues .operand .term head) (termRest · head) n c
  list {c : Cursor} {close : Symbol} (hc : c.kind.isWord)
      (hdepth : 16 * c.rest.length + 14 ≤ n) :
    Tracks (ListCompletable close) (list · close) n c
  primary {c : Cursor} (hc : c.kind.isWord) (hdepth : 16 * c.rest.length + 5 ≤ n) :
    Tracks (Completable .term) primary n c
  conditional {c : Cursor} (hc : c.kind.isWord) (hdepth : 16 * c.rest.length + 16 ≤ n) :
    Tracks (Completable .branches) conditional n c
  loop {c : Cursor} {t : Token} (ht : t.kind = .keyword .whileK) (hc : c.kind.isWord)
      (hdepth : 16 * c.rest.length + 16 ≤ n) :
    Tracks (fun ts => Completable .primary (t :: ts)) loop n c
  function {c : Cursor} {t : Token} (ht : t.kind = .keyword .funK) (hc : c.kind.isWord)
      (hdepth : 16 * c.rest.length + 16 ≤ n) :
    Tracks (fun ts => Completable .primary (t :: ts)) function n c
  block {c : Cursor} {t : Token} (ht : t.kind = .keyword .blockK) (hc : c.kind.isWord)
      (hdepth : 16 * c.rest.length + 16 ≤ n) :
    Tracks (fun ts => Completable .primary (t :: ts)) block n c

theorem tracks_parameters {n : Nat} {seen : List String} {c : Cursor}
    (hc : c.kind.isWord) (hdepth : c.rest.length + 1 ≤ n) :
    Tracks (ParametersCompletable seen) (parameters · seen) n c := by
  induction n generalizing seen c with
  | zero => omega
  | succ n ih =>
    have hclosed := Token.spelled_symbol .closeParen
    have hkind : (Token.ofSymbol .closeParen).kind = .symbol .closeParen := rfl
    have hnil : ParametersCompletable seen [] :=
      ⟨_, [], [], Token.ofSymbol .closeParen, rfl, .nil, .nil, nofun, hkind, hclosed⟩
    refine .succ ?_
    by_cases hclose : c.kind = .symbol .closeParen
    · refine .of_current (fun k y hy => by rw [parameters, Cursor.kind_congr hy, hclose]) ?_
      exact .advance hc (by simp [hclose]) fun y _ hword => .pure hword []
    by_cases hname : c.kind = .identifier
    · have hfinish : c.kind ≠ .finish := by simp [hname]
      by_cases hseen : seen.contains c.current.lexeme
      · -- a name that has been there is refused at its own place
        refine .of_current (fun k y hy => ?_) (.advance_fail (.duplicateParameter c.current.lexeme)
          hc hfinish rfl hnil)
        rw [parameters, Cursor.kind_congr hy, hname]
        simp only [hy, if_pos hseen]
      have hfree : c.current.lexeme ∉ seen := by simpa using hseen
      -- a new name, and behind it a comma and more names or the end
      refine .of_current (H := fun k y => y.advance >>= fun next =>
        if next.kind = .symbol .comma then next.advance >>= fun next =>
          parameters k (c.current.lexeme :: seen) next >>= fun p =>
            pure (c.current.lexeme :: p.1, p.2)
        else next.takeSymbol .closeParen >>= fun next => pure ([c.current.lexeme], next))
        (fun k y hy => ?_) (.advance hc hfinish fun x hx hword => ?_)
      · rw [parameters, Cursor.kind_congr hy, hname]
        simp only [hy, if_neg hseen]
      have hlt := Cursor.length_lt_of_before_cons hx
      by_cases hcomma : x.kind = .symbol .comma
      · refine .of_current (fun k y hy => by rw [Cursor.kind_congr hy, if_pos hcomma]) ?_
        refine .advance hword (by simp [hcomma]) fun y hy hword' => ?_
        have hlt' := Cursor.length_lt_of_before_cons hy
        have hmore : Tracks (ParametersCompletable (c.current.lexeme :: seen))
            (parameters · (c.current.lexeme :: seen)) n y := ih hword' (by omega)
        refine .bind (hmore.mono ?_) fun names z us _ _ hz => .pure hz (c.current.lexeme :: names)
        -- the names that complete the list differ from this one, which counts as seen there
        rintro us ⟨vs, names, ws, close, hws, hparams, hdistinct, hnew, hclose', hvs⟩
        refine ⟨vs, c.current.lexeme :: names, c.current :: x.current :: ws, close, ?_,
          .cons hname hcomma hparams, ?_, ?_, hclose', hvs⟩
        · simp [hws]
        · exact List.nodup_cons.mpr ⟨fun hmem => hnew _ hmem List.mem_cons_self, hdistinct⟩
        · exact List.forall_mem_cons.mpr
            ⟨hfree, fun name hmem h => hnew name hmem (List.mem_cons_of_mem _ h)⟩
      · refine .of_current (fun k y hy => by rw [Cursor.kind_congr hy, if_neg hcomma]) ?_
        refine .takeSymbol hword ?_ fun y _ _ hword' => .pure hword' [c.current.lexeme]
        exact ⟨_, [c.current.lexeme], [c.current], Token.ofSymbol .closeParen, rfl, .last hname,
          List.nodup_cons.mpr ⟨List.not_mem_nil, .nil⟩, List.forall_mem_singleton.mpr hfree, hkind,
          hclosed⟩
    · refine .of_current (fun k y hy => ?_) (.fail .expectedParameter hc rfl hnil)
      rw [parameters, Cursor.kind_congr hy]
      split
      · next hk => exact absurd hk hclose
      · next hk => exact absurd hk hname
      · rfl

/-- Nothing is called or indexed where no bracket follows. -/
theorem termRest_succ_of_level {n : Nat} {head : Expr} {c : Cursor} (hlevel : 0 < c.kind.level) :
    termRest (n + 1) head c = .ok (head, c) := by
  rw [termRest]
  split
  · next hkind => rw [hkind] at hlevel; exact absurd hlevel (Nat.lt_irrefl 0)
  · next hkind => rw [hkind] at hlevel; exact absurd hlevel (Nat.lt_irrefl 0)
  · rfl

namespace Local

variable {n : Nat} {c : Cursor} {left : Expr}

theorem sequence_succ (ih : Local n) (hc : c.kind.isWord)
    (hdepth : 16 * c.rest.length + 15 ≤ n + 1) :
    Tracks (Completable .sequence) (fun k => Parser.sequence (k + 1)) n c := by
  refine .of_current (fun k y _ => by rw [Parser.sequence]) ?_
  have hstatements := ih.statements hc (by omega)
  refine .bind (hstatements.mono fun ts h => h.map fun es us hus => ⟨_, .sequence hus⟩) ?_
  intro es x ts _ _ hx
  exact .pure hx _

theorem statements_succ (ih : Local n) (hc : c.kind.isWord)
    (hdepth : 16 * c.rest.length + 14 ≤ n + 1) :
    Tracks (Completable .items) (fun k => Parser.statements (k + 1)) n c := by
  by_cases hsemicolon : c.kind = .symbol .semicolon
  · refine .of_current
      (fun k y hy => by rw [Parser.statements, Cursor.kind_congr hy, if_pos hsemicolon]) ?_
    refine .advance hc (by simp [hsemicolon]) fun y hy hword => ?_
    have hlength := Cursor.length_lt_of_before_cons hy
    refine (ih.statements hword (by omega)).mono fun ts h => ?_
    exact h.last [] fun es us hus => ⟨es, .semicolon hsemicolon hus⟩
  by_cases hend : c.atSequenceEnd
  · -- whether the token that ends the sequence is the right one is for others to say
    refine .of_current (fun k y hy => ?_) (.pure hc [])
    rw [Parser.statements, Cursor.kind_congr hy, if_neg hsemicolon, Cursor.atSequenceEnd_congr hy,
      if_pos hend]
  refine .of_current (fun k y hy => by
    rw [Parser.statements, Cursor.kind_congr hy, if_neg hsemicolon, Cursor.atSequenceEnd_congr hy,
      if_neg hend]) ?_
  have hexpression := ih.expression hc (by omega)
  refine .bind (hexpression.mono fun ts h => h.map fun e us hus => ⟨[e], .lastItem hus⟩) ?_
  intro item x ts hread hts hx
  have hitem := ((sound n).expression hread).derives hts
  have hle := Cursor.length_le_of_before hts
  dsimp only
  by_cases hnext : x.kind = .symbol .semicolon
  · refine .of_current (fun k y hy => by rw [Cursor.kind_congr hy, if_pos hnext]) ?_
    refine .advance hx (by simp [hnext]) fun y hy hword => ?_
    have hlength := Cursor.length_lt_of_before_cons hy
    refine .bind ((ih.statements hword (by omega)).mono fun us h => ?_) ?_
    · exact h.last _ fun es vs hvs => ⟨item :: es, .item hitem hnext hvs⟩
    · intro items z us _ _ hz
      exact .pure hz (item :: items)
  · refine .of_current (fun k y hy => ?_) (.pure hx [item])
    rw [Cursor.kind_congr hy, if_neg hnext]
    rfl

theorem expression_succ (ih : Local n) (hc : c.kind.isWord)
    (hdepth : 16 * c.rest.length + 13 ≤ n + 1) :
    Tracks (Completable .expression) (fun k => Parser.expression (k + 1)) n c := by
  refine .of_current (fun k y _ => by rw [Parser.expression]) ?_
  have hdisjunction := ih.disjunction hc (by omega)
  refine .bind (hdisjunction.mono fun ts h => h.map fun e us hus => ⟨e, .expression hus⟩) ?_
  intro target x ts hread hts hx
  have htarget := ((sound n).disjunction hread).derives hts
  have hle := Cursor.length_le_of_before hts
  -- what has been read is an expression already, whatever offends behind it
  have hdone : Completable .expression (ts ++ []) := by
    rw [List.append_nil]
    exact .of_derives (.expression htarget)
  have hvalue : ∀ y, x = y.before [x.current] → y.kind.isWord →
      Tracks (Completable .disjunction) Parser.disjunction n y := by
    intro y hy hword
    have hlength := Cursor.length_lt_of_before_cons hy
    exact ih.disjunction hword (by omega)
  dsimp only
  by_cases hstore : x.kind = .symbol .store
  · have hfinish : x.kind ≠ .finish := by simp [hstore]
    refine .of_current (fun k y hy => by rw [Cursor.kind_congr hy, hstore]) ?_
    cases target with
    | var name pos =>
      refine .operand hx hfinish hvalue (sound n).disjunction (fun us h => ?_)
        fun value z us _ _ hz => .pure hz (Expr.store name value)
      exact h.last _ fun value vs hvs => ⟨_, .store htarget hstore hvs⟩
    -- no other target can be defined, so none of the tokens behind the sign matters
    | _ => exact .advance_fail .badTarget hx hfinish rfl hdone
  by_cases hupdate : x.kind = .symbol .update
  · have hfinish : x.kind ≠ .finish := by simp [hupdate]
    refine .of_current (fun k y hy => by rw [Cursor.kind_congr hy, hupdate]) ?_
    dsimp only
    split
    · next name pos =>
      refine .operand hx hfinish hvalue (sound n).disjunction (fun us h => ?_)
        fun value z us _ _ hz => .pure hz (Expr.update name value pos)
      exact h.last _ fun value vs hvs => ⟨_, .update htarget hupdate hvs⟩
    · next collection index pos =>
      refine .operand hx hfinish hvalue (sound n).disjunction (fun us h => ?_)
        fun value z us _ _ hz =>
          .pure hz (Expr.apply (.primitive .set) [collection, index, value] pos)
      exact h.last _ fun value vs hvs => ⟨_, .replace htarget hupdate hvs⟩
    · exact .advance_fail .badTarget hx hfinish rfl hdone
  · refine .of_current (fun k y hy => ?_) (.pure hx target)
    rw [Cursor.kind_congr hy]
    split
    · next hk => exact absurd hk hstore
    · next hk => exact absurd hk hupdate
    · rfl

theorem disjunction_succ (ih : Local n) (hc : c.kind.isWord)
    (hdepth : 16 * c.rest.length + 12 ≤ n + 1) :
    Tracks (Completable .disjunction) (fun k => Parser.disjunction (k + 1)) n c := by
  refine .of_current (fun k y _ => by rw [Parser.disjunction]) ?_
  have hconjunction := ih.conjunction hc (by omega)
  refine .bind (hconjunction.mono fun ts h => h.map fun e us hus => ⟨e, .disjunction hus⟩) ?_
  intro left x ts hread hts hx
  have hleft := ((sound n).conjunction hread).derives hts
  have hle := Cursor.length_le_of_before hts
  exact (ih.disjunctionRest hx (by omega)).mono fun us h => h ts (.disjunction hleft)

theorem disjunctionRest_succ (ih : Local n) (hc : c.kind.isWord)
    (hdepth : 16 * c.rest.length + 1 ≤ n + 1) :
    Tracks (Continues .disjunction .disjunction left)
      (fun k => Parser.disjunctionRest (k + 1) left) n c := by
  by_cases hor : c.kind = .symbol .or
  · refine .of_current
      (fun k y hy => by rw [Parser.disjunctionRest, Cursor.kind_congr hy, if_pos hor]) ?_
    exact .operator hc (by simp [hor])
      (fun y hlt hword => ih.conjunction hword (by omega)) (sound n).conjunction
      (fun e x hlt hword => ih.disjunctionRest hword (by omega))
      fun right ts us hts hus => .or hts hor hus
  · refine .of_current (fun k y hy => ?_) (.pure hc left)
    rw [Parser.disjunctionRest, Cursor.kind_congr hy, if_neg hor]

theorem conjunction_succ (ih : Local n) (hc : c.kind.isWord)
    (hdepth : 16 * c.rest.length + 11 ≤ n + 1) :
    Tracks (Completable .conjunction) (fun k => Parser.conjunction (k + 1)) n c := by
  refine .of_current (fun k y _ => by rw [Parser.conjunction]) ?_
  have hcomparison := ih.comparison hc (by omega)
  refine .bind (hcomparison.mono fun ts h => h.map fun e us hus => ⟨e, .conjunction hus⟩) ?_
  intro left x ts hread hts hx
  have hleft := ((sound n).comparison hread).derives hts
  have hle := Cursor.length_le_of_before hts
  exact (ih.conjunctionRest hx (by omega)).mono fun us h => h ts (.conjunction hleft)

theorem conjunctionRest_succ (ih : Local n) (hc : c.kind.isWord)
    (hdepth : 16 * c.rest.length + 1 ≤ n + 1) :
    Tracks (Continues .conjunction .conjunction left)
      (fun k => Parser.conjunctionRest (k + 1) left) n c := by
  by_cases hand : c.kind = .symbol .and
  · refine .of_current
      (fun k y hy => by rw [Parser.conjunctionRest, Cursor.kind_congr hy, if_pos hand]) ?_
    exact .operator hc (by simp [hand])
      (fun y hlt hword => ih.comparison hword (by omega)) (sound n).comparison
      (fun e x hlt hword => ih.conjunctionRest hword (by omega))
      fun right ts us hts hus => .and hts hand hus
  · refine .of_current (fun k y hy => ?_) (.pure hc left)
    rw [Parser.conjunctionRest, Cursor.kind_congr hy, if_neg hand]

theorem comparison_succ (ih : Local n) (hc : c.kind.isWord)
    (hdepth : 16 * c.rest.length + 10 ≤ n + 1) :
    Tracks (Completable .comparison) (fun k => Parser.comparison (k + 1)) n c := by
  refine .of_current (fun k y _ => by rw [Parser.comparison]) ?_
  have hsum := ih.sum hc (by omega)
  refine .bind (hsum.mono fun ts h => h.map fun e us hus => ⟨e, .comparison hus⟩) ?_
  intro left x ts hread hts hx
  have hleft := ((sound n).sum hread).derives hts
  have hle := Cursor.length_le_of_before hts
  dsimp only
  cases hop : x.kind.comparison? with
  | none =>
    refine .of_current (fun k y hy => ?_) (.pure hx left)
    rw [Cursor.kind_congr hy, hop]
    rfl
  | some op =>
    have hfinish := Cursor.ne_finish_of_some hop rfl
    refine .of_current (fun k y hy => by rw [Cursor.kind_congr hy, hop, Cursor.pos_congr hy]) ?_
    refine .operand hx hfinish (fun y hy hword => ?_) (sound n).sum (fun us h => ?_)
      fun right z us _ _ hz => .pure hz (Expr.apply (.primitive op) [left, right] x.pos)
    · have hlength := Cursor.length_lt_of_before_cons hy
      exact ih.sum hword (by omega)
    · exact h.last _ fun right vs hvs => ⟨_, .compare hleft (mem_comparisons.mpr hop) hvs⟩

theorem sum_succ (ih : Local n) (hc : c.kind.isWord)
    (hdepth : 16 * c.rest.length + 9 ≤ n + 1) :
    Tracks (Completable .sum) (fun k => Parser.sum (k + 1)) n c := by
  cases hop : c.kind.sign? with
  | none =>
    refine .of_current (fun k y hy => by rw [Parser.sum, Cursor.kind_congr hy, hop]) ?_
    have hproduct := ih.product hc (by omega)
    refine .bind (hproduct.mono fun ts h => h.map fun e us hus => ⟨e, .sum hus⟩) ?_
    intro left x ts hread hts hx
    have hleft := ((sound n).product hread).derives hts
    have hle := Cursor.length_le_of_before hts
    exact (ih.sumRest hx (by omega)).mono fun us h => h ts (.sum hleft)
  | some op =>
    have hfinish := Cursor.ne_finish_of_some hop rfl
    refine .of_current
      (fun k y hy => by rw [Parser.sum, Cursor.kind_congr hy, hop, Cursor.pos_congr hy]) ?_
    refine .operand hc hfinish (fun y hy hword => ?_) (sound n).product (fun us h => ?_)
      fun e x us hus hx hword => ?_
    · have hlength := Cursor.length_lt_of_before_cons hy
      exact ih.product hword (by omega)
    · exact h.last [] fun e vs hvs => ⟨_, .signed (mem_signs.mpr hop) hvs⟩
    · have hlength := Cursor.length_lt_of_before_cons hx
      exact (ih.sumRest hword (by omega)).mono fun vs h =>
        h (c.current :: us) (.signed (mem_signs.mpr hop) hus)

theorem sumRest_succ (ih : Local n) (hc : c.kind.isWord)
    (hdepth : 16 * c.rest.length + 1 ≤ n + 1) :
    Tracks (Continues .sum .sum left) (fun k => Parser.sumRest (k + 1) left) n c := by
  cases hop : c.kind.sum? with
  | none =>
    refine .of_current (fun k y hy => ?_) (.pure hc left)
    rw [Parser.sumRest, Cursor.kind_congr hy, hop]
  | some op =>
    have hfinish := Cursor.ne_finish_of_some hop rfl
    refine .of_current
      (fun k y hy => by rw [Parser.sumRest, Cursor.kind_congr hy, hop, Cursor.pos_congr hy]) ?_
    exact .operator (f := fun right => .apply (.primitive op) [left, right] c.pos) hc hfinish
      (fun y hlt hword => ih.product hword (by omega)) (sound n).product
      (fun e x hlt hword => ih.sumRest hword (by omega))
      fun right ts us hts hus => .add hts (mem_additions.mpr hop) hus

theorem product_succ (ih : Local n) (hc : c.kind.isWord)
    (hdepth : 16 * c.rest.length + 8 ≤ n + 1) :
    Tracks (Completable .product) (fun k => Parser.product (k + 1)) n c := by
  refine .of_current (fun k y _ => by rw [Parser.product]) ?_
  have hpower := ih.power hc (by omega)
  refine .bind (hpower.mono fun ts h => h.map fun e us hus => ⟨e, .product hus⟩) ?_
  intro left x ts hread hts hx
  have hleft := ((sound n).power hread).derives hts
  have hle := Cursor.length_le_of_before hts
  exact (ih.productRest hx (by omega)).mono fun us h => h ts (.product hleft)

theorem productRest_succ (ih : Local n) (hc : c.kind.isWord)
    (hdepth : 16 * c.rest.length + 1 ≤ n + 1) :
    Tracks (Continues .product .product left) (fun k => Parser.productRest (k + 1) left) n c := by
  cases hop : c.kind.product? with
  | none =>
    refine .of_current (fun k y hy => ?_) (.pure hc left)
    rw [Parser.productRest, Cursor.kind_congr hy, hop]
  | some op =>
    have hfinish := Cursor.ne_finish_of_some hop rfl
    refine .of_current
      (fun k y hy => by rw [Parser.productRest, Cursor.kind_congr hy, hop, Cursor.pos_congr hy]) ?_
    exact .operator (f := fun right => .apply (.primitive op) [left, right] c.pos) hc hfinish
      (fun y hlt hword => ih.power hword (by omega)) (sound n).power
      (fun e x hlt hword => ih.productRest hword (by omega))
      fun right ts us hts hus => .multiply hts (mem_multiplications.mpr hop) hus

theorem power_succ (ih : Local n) (hc : c.kind.isWord)
    (hdepth : 16 * c.rest.length + 7 ≤ n + 1) :
    Tracks (Completable .power) (fun k => Parser.power (k + 1)) n c := by
  refine .of_current (fun k y _ => by rw [Parser.power]) ?_
  have hterm := ih.term hc (by omega)
  refine .bind (hterm.mono fun ts h => h.map fun e us hus => ⟨e, .power hus⟩) ?_
  intro base x ts hread hts hx
  have hbase := ((sound n).term hread).1.derives hts
  have hle := Cursor.length_le_of_before hts
  dsimp only
  by_cases hcaret : x.kind = .symbol .caret
  · refine .of_current
      (fun k y hy => by rw [Cursor.kind_congr hy, if_pos hcaret, Cursor.pos_congr hy]) ?_
    refine .operand hx (by simp [hcaret]) (fun y hy hword => ?_) (sound n).power
      (fun us h => ?_)
      fun exponent z us _ _ hz => .pure hz (Expr.apply (.primitive .pow) [base, exponent] x.pos)
    · have hlength := Cursor.length_lt_of_before_cons hy
      exact ih.power hword (by omega)
    · exact h.last _ fun exponent vs hvs => ⟨_, .raise hbase hcaret hvs⟩
  · refine .of_current (fun k y hy => ?_) (.pure hx base)
    rw [Cursor.kind_congr hy, if_neg hcaret]
    rfl

theorem term_succ (ih : Local n) (hc : c.kind.isWord)
    (hdepth : 16 * c.rest.length + 6 ≤ n + 1) :
    Tracks (Completable .term) (fun k => Parser.term (k + 1)) n c := by
  refine .of_current (fun k y _ => by rw [Parser.term]) ?_
  refine .bind (ih.primary hc (by omega)) ?_
  intro head x ts hread hts hx
  have hle := Cursor.length_le_of_before hts
  have hrest : Tracks (Continues .operand .term head) (Parser.termRest · head) n x :=
    ih.termRest hx (by omega)
  rcases (sound n).primary hread with hprimary | ⟨-, hlevel⟩
  · exact hrest.mono fun us h => h ts (.operand (hprimary.derives hts))
  · -- behind a `!` and its term nothing is left to call or index, and nothing can fail
    refine ⟨hrest.ok, fun hrun => ?_⟩
    cases n with
    | zero => omega
    | succ n =>
      have hend : Parser.termRest (n + 1) head x = .ok (head, x) := termRest_succ_of_level hlevel
      dsimp only at hrun
      rw [hend] at hrun
      cases hrun

theorem termRest_succ (ih : Local n) {head : Expr} (hc : c.kind.isWord)
    (hdepth : 16 * c.rest.length + 1 ≤ n + 1) :
    Tracks (Continues .operand .term head) (fun k => Parser.termRest (k + 1) head) n c := by
  -- an opening parenthesis behind an operand begins a call
  by_cases hparen : c.kind = .symbol .openParen
  · refine .of_current (fun k y hy => by
      rw [Parser.termRest, Cursor.kind_congr hy, hparen, Cursor.pos_congr hy]) ?_
    refine .advance hc (by simp [hparen]) fun y hy hword => ?_
    have hlength := Cursor.length_lt_of_before_cons hy
    have hlist : Tracks (ListCompletable .closeParen) (Parser.list · .closeParen) n y :=
      ih.list hword (by omega)
    refine .bind (hlist.mono ?_) ?_
    · -- arguments that can be completed, with their bracket, complete the call
      rintro us ⟨vs, args, ws, close, hws, hargs, hclose, hvs⟩ ts hts
      exact .of_tokens (.term (.call hts hparen hargs hclose)) (by simp [hws]) hvs
    · -- the call is the operand of the brackets behind it
      intro args x us hread hus hx
      obtain ⟨vs, close, hclose, hy', hargs⟩ := (sound n).list hread
      obtain rfl := Cursor.before_inj (hus.symm.trans hy')
      have hle := Cursor.length_le_of_before hus
      refine (ih.termRest hx (by omega)).mono fun ws h ts hts => ?_
      have hmore := h _ (.call hts hparen hargs hclose)
      simpa using hmore
  -- an opening bracket begins an index
  by_cases hbracket : c.kind = .symbol .openBracket
  · refine .of_current (fun k y hy => by
      rw [Parser.termRest, Cursor.kind_congr hy, hbracket, Cursor.pos_congr hy]) ?_
    refine .operand hc (by simp [hbracket]) (fun y hy hword => ?_) (sound n).expression
      (fun us h ts hts => ?_) fun index x us hindex hx hword => ?_
    · have hlength := Cursor.length_lt_of_before_cons hy
      exact ih.expression hword (by omega)
    · refine h.after _ [Token.ofSymbol .closeBracket] ?_ fun index vs hvs => ?_
      · exact Token.spelled_symbol _
      · exact ⟨_, .term (.index hts hbracket hvs rfl)⟩
    · have hlength := Cursor.length_lt_of_before_cons hx
      refine .takeSymbol hword (fun ts hts => ?_) fun y hclose hy hword' => ?_
      · have hterm := Derives.term
          (.index hts hbracket hindex (rfl : (Token.ofSymbol .closeBracket).kind = _))
        exact .of_tokens hterm (by simp) (Token.spelled_symbol .closeBracket)
      · have hlength' := Cursor.length_lt_of_before_cons hy
        refine (ih.termRest hword' (by omega)).mono fun vs h ts hts => ?_
        have hmore := h _ (.index hts hbracket hindex hclose)
        simpa using hmore
  · -- any other token is left for others to judge
    refine .of_current (fun k y hy => ?_) (.pure hc head)
    rw [Parser.termRest, Cursor.kind_congr hy]
    split
    · next hk => exact absurd hk hparen
    · next hk => exact absurd hk hbracket
    · rfl

theorem list_succ (ih : Local n) {close : Symbol} (hc : c.kind.isWord)
    (hdepth : 16 * c.rest.length + 14 ≤ n + 1) :
    Tracks (ListCompletable close) (fun k => Parser.list (k + 1) close) n c := by
  have hclosed := Token.spelled_symbol close
  by_cases hclose : c.kind = .symbol close
  · refine .of_current
      (fun k y hy => by rw [Parser.list, Cursor.kind_congr hy, if_pos hclose]) ?_
    exact .advance hc (by simp [hclose]) fun y _ hword => .pure hword []
  refine .of_current (fun k y hy => by rw [Parser.list, Cursor.kind_congr hy, if_neg hclose]) ?_
  refine .bind ((ih.expression hc (by omega)).mono ?_) ?_
  · -- an element is a list as soon as the bracket follows
    rintro ts ⟨us, e, he, hus⟩
    exact ⟨us ++ [Token.ofSymbol close], [e], ts ++ us, Token.ofSymbol close, by simp,
      .lastElement he, rfl, List.forall_mem_append.mpr ⟨hus, hclosed⟩⟩
  intro item x ts hread hts hx
  have hitem := ((sound n).expression hread).derives hts
  have hle := Cursor.length_le_of_before hts
  dsimp only
  -- behind a comma the rest is a list again, so what completes it completes this one
  by_cases hcomma : x.kind = .symbol .comma
  · refine .of_current (fun k y hy => by rw [Cursor.kind_congr hy, if_pos hcomma]) ?_
    refine .advance hx (by simp [hcomma]) fun y hy hword => ?_
    have hlength := Cursor.length_lt_of_before_cons hy
    have hlist : Tracks (ListCompletable close) (Parser.list · close) n y :=
      ih.list hword (by omega)
    refine .bind (hlist.mono ?_) fun items z us _ _ hz => .pure hz (item :: items)
    rintro us ⟨vs, es, ws, t, hws, hes, ht, hvs⟩
    refine ⟨vs, item :: es, ts ++ x.current :: ws, t, ?_, .element hitem hcomma hes, ht, hvs⟩
    simp [hws]
  · -- without a comma only the bracket may follow
    refine .of_current (fun k y hy => by rw [Cursor.kind_congr hy, if_neg hcomma]) ?_
    refine .takeSymbol hx ?_ fun y _ _ hword => .pure hword [item]
    exact ⟨[Token.ofSymbol close], [item], ts, Token.ofSymbol close, by simp, .lastElement hitem,
      rfl, hclosed⟩

theorem primary_succ (ih : Local n) (hc : c.kind.isWord)
    (hdepth : 16 * c.rest.length + 5 ≤ n + 1) :
    Tracks (Completable .term) (fun k => Parser.primary (k + 1)) n c := by
  -- without a token that begins a primary, `null` could stand here
  have hnone : Tracks (Completable .term)
      (fun _ y => (y.fail .expectedExpression : Read (Expr × Cursor))) n c := by
    refine .fail .expectedExpression hc rfl ?_
    have hnull := Derives.null (rfl : (Token.ofKeyword .nullK).kind = _)
    exact .of_tokens (.term (.operand hnull)) rfl (Token.spelled_keyword _)
  have hlt : ∀ {y : Cursor}, c = y.before [c.current] → y.rest.length < c.rest.length := fun hy =>
    Cursor.length_lt_of_before_cons hy
  cases hkind : c.kind with
  | finish | malformed p =>
    exact .of_current (fun k y hy => by rw [Parser.primary, Cursor.kind_congr hy, hkind]) hnone
  | number x =>
    refine .of_current (fun k y hy => by rw [Parser.primary, Cursor.kind_congr hy, hkind]) ?_
    exact .advance hc (by simp [hkind]) fun y _ hword => .pure hword _
  | str s =>
    refine .of_current (fun k y hy => by rw [Parser.primary, Cursor.kind_congr hy, hkind]) ?_
    exact .advance hc (by simp [hkind]) fun y _ hword => .pure hword _
  | identifier =>
    refine .of_current (fun k y hy => by
      rw [Parser.primary, Cursor.kind_congr hy, hkind, hy, Cursor.pos_congr hy]) ?_
    exact .advance hc (by simp [hkind]) fun y _ hword => .pure hword _
  | symbol s =>
    have hfinish : c.kind ≠ .finish := by simp [hkind]
    cases s with
    | not =>
      refine .of_current (fun k y hy => by
        rw [Parser.primary, Cursor.kind_congr hy, hkind, Cursor.pos_congr hy]) ?_
      refine .operand hc hfinish (fun y hy hword => ?_) (fun h => ((sound n).term h).1)
        (fun us h => ?_) fun e z us _ _ hz => .pure hz (Expr.apply (.primitive .not) [e] c.pos)
      · have hlength := hlt hy
        exact ih.term hword (by omega)
      · exact h.last [] fun e vs hvs => ⟨_, .not hkind hvs⟩
    | openParen =>
      refine .of_current (fun k y hy => by rw [Parser.primary, Cursor.kind_congr hy, hkind]) ?_
      refine .operand hc hfinish (fun y hy hword => ?_) (sound n).sequence (fun us h => ?_)
        fun e x us hus hx hword => .takeSymbol hword ?_ fun y _ _ hword' => .pure hword' e
      · have hlength := hlt hy
        exact ih.sequence hword (by omega)
      · exact h.after [] [Token.ofSymbol .closeParen] (Token.spelled_symbol _)
          fun e vs hvs => ⟨_, .term (.operand (.parentheses hkind hvs rfl))⟩
      · have hprimary := Derives.parentheses hkind hus
          (rfl : (Token.ofSymbol .closeParen).kind = _)
        exact .of_tokens (.term (.operand hprimary)) (by simp) (Token.spelled_symbol .closeParen)
    | openBracket =>
      refine .of_current (fun k y hy => by rw [Parser.primary, Cursor.kind_congr hy, hkind]) ?_
      refine .advance hc hfinish fun y hy hword => ?_
      have hlength := hlt hy
      have hlist : Tracks (ListCompletable .closeBracket) (Parser.list · .closeBracket) n y :=
        ih.list hword (by omega)
      refine .bind (hlist.mono ?_) fun items z us _ _ hz => .pure hz (Expr.array items)
      rintro us ⟨vs, es, ws, close, hws, hes, hclose, hvs⟩
      exact .of_tokens (.term (.operand (.array hkind hes hclose))) (by simp [hws]) hvs
    | _ =>
      exact .of_current (fun k y hy => by rw [Parser.primary, Cursor.kind_congr hy, hkind]) hnone
  | keyword w =>
    have hfinish : c.kind ≠ .finish := by simp [hkind]
    cases w with
    | nullK | trueK | falseK =>
      refine .of_current (fun k y hy => by rw [Parser.primary, Cursor.kind_congr hy, hkind]) ?_
      exact .advance hc hfinish fun y _ hword => .pure hword _
    | ifK =>
      refine .of_current (fun k y hy => by rw [Parser.primary, Cursor.kind_congr hy, hkind]) ?_
      refine .operand hc hfinish (fun y hy hword => ?_) (sound n).conditional (fun us h => ?_)
        fun e x us hus hx hword => .takeKeyword hword ?_ fun y _ _ hword' => .pure hword' e
      · have hlength := hlt hy
        exact ih.conditional hword (by omega)
      · exact h.after [] [Token.ofKeyword .endK] (Token.spelled_keyword _)
          fun e vs hvs => ⟨_, .term (.operand (.cond hkind hvs rfl))⟩
      · have hprimary := Derives.cond hkind hus (rfl : (Token.ofKeyword .endK).kind = _)
        exact .of_tokens (.term (.operand hprimary)) (by simp) (Token.spelled_keyword .endK)
    | whileK =>
      refine .of_current (fun k y hy => by rw [Parser.primary, Cursor.kind_congr hy, hkind]) ?_
      refine .advance hc hfinish fun y hy hword => ?_
      have hlength := hlt hy
      refine (ih.loop hkind hword (by omega)).mono fun us h => ?_
      exact h.map fun e vs hvs => ⟨e, .term (.operand hvs)⟩
    | funK =>
      refine .of_current (fun k y hy => by rw [Parser.primary, Cursor.kind_congr hy, hkind]) ?_
      refine .advance hc hfinish fun y hy hword => ?_
      have hlength := hlt hy
      refine (ih.function hkind hword (by omega)).mono fun us h => ?_
      exact h.map fun e vs hvs => ⟨e, .term (.operand hvs)⟩
    | blockK =>
      refine .of_current (fun k y hy => by rw [Parser.primary, Cursor.kind_congr hy, hkind]) ?_
      refine .advance hc hfinish fun y hy hword => ?_
      have hlength := hlt hy
      refine (ih.block hkind hword (by omega)).mono fun us h => ?_
      exact h.map fun e vs hvs => ⟨e, .term (.operand hvs)⟩
    | _ =>
      exact .of_current (fun k y hy => by rw [Parser.primary, Cursor.kind_congr hy, hkind]) hnone

/-- The word in front of a branch. -/
theorem branchWord {K : List Token → Prop} {G : Production Expr} (hc : c.kind.isWord) (hK : K [])
    (hG : ∀ y, c.kind = .keyword .doK ∨ c.kind = .keyword .thenK → c = y.before [c.current] →
      y.kind.isWord → Tracks (fun us => K (c.current :: us)) G n y) :
    Tracks K (fun k y => if y.kind = .keyword .thenK then y.advance >>= G k
      else y.takeKeyword .doK >>= G k) n c := by
  by_cases hthen : c.kind = .keyword .thenK
  · refine .of_current (fun k y hy => by rw [Cursor.kind_congr hy, if_pos hthen]) ?_
    exact .advance hc (by simp [hthen]) fun y => hG y (.inr hthen)
  · refine .of_current (fun k y hy => by rw [Cursor.kind_congr hy, if_neg hthen]) ?_
    exact .takeKeyword hc hK fun y hdo => hG y (.inl hdo)

theorem conditional_succ (ih : Local n) (hc : c.kind.isWord)
    (hdepth : 16 * c.rest.length + 16 ≤ n + 1) :
    Tracks (Completable .branches) (fun k => Parser.conditional (k + 1)) n c := by
  -- a condition alone goes on with `then` and nothing behind it
  have hthen : ∀ {condition ts}, Derives (.sequence condition) ts →
      Derives (.branches (.cond condition .null .null)) (ts ++ [Token.ofKeyword .thenK]) :=
    fun hts => .oneBranch hts (.inr rfl) (.sequence .noItem)
  refine .of_current (fun k y _ => by rw [Parser.conditional]) ?_
  refine .bind ((ih.sequence hc (by omega)).mono fun ts h => ?_) ?_
  · exact h.within [] [Token.ofKeyword .thenK] (Token.spelled_keyword _)
      fun condition us hus => ⟨_, hthen hus⟩
  intro condition x ts hread hts hx
  have hcondition := ((sound n).sequence hread).derives hts
  have hle := Cursor.length_le_of_before hts
  refine branchWord hx (.of_tokens (hthen hcondition) (by simp) (Token.spelled_keyword .thenK))
    fun y hword hy hy' => ?_
  have hlength := Cursor.length_lt_of_before_cons hy
  refine .bind ((ih.sequence hy' (by omega)).mono fun us h => ?_) ?_
  · exact h.last _ fun consequent vs hvs => ⟨_, .oneBranch hcondition hword hvs⟩
  intro consequent z us hread' hus hz
  have hconsequent := ((sound n).sequence hread').derives hus
  have hle' := Cursor.length_le_of_before hus
  dsimp only
  by_cases helif : z.kind = .keyword .elifK
  · refine .of_current (fun k y hy => by rw [Cursor.kind_congr hy, helif]) ?_
    refine .operand hz (by simp [helif]) (fun w hw hword' => ?_) (sound n).conditional
      (fun vs h => ?_) fun alternate z' vs _ _ hz' =>
        .pure hz' (Expr.cond condition consequent alternate)
    · have hlt := Cursor.length_lt_of_before_cons hw
      exact ih.conditional hword' (by omega)
    · -- the branches behind `elif` end with the same `end` as these
      obtain ⟨ws, alternate, halternate, hws⟩ := h
      exact .of_tokens (.elifBranch hcondition hword hconsequent helif halternate) (by simp) hws
  by_cases helse : z.kind = .keyword .elseK
  · refine .of_current (fun k y hy => by rw [Cursor.kind_congr hy, helse]) ?_
    refine .operand hz (by simp [helse]) (fun w hw hword' => ?_) (sound n).sequence
      (fun vs h => ?_) fun alternate z' vs _ _ hz' =>
        .pure hz' (Expr.cond condition consequent alternate)
    · have hlt := Cursor.length_lt_of_before_cons hw
      exact ih.sequence hword' (by omega)
    · obtain ⟨ws, alternate, halternate, hws⟩ := h
      exact .of_tokens (.elseBranch hcondition hword hconsequent helse halternate) (by simp) hws
  · refine .of_current (fun k y hy => ?_) (.pure hz (.cond condition consequent .null))
    rw [Cursor.kind_congr hy]
    split
    · next hk => exact absurd hk helif
    · next hk => exact absurd hk helse
    · rfl

theorem loop_succ (ih : Local n) {t : Token} (ht : t.kind = .keyword .whileK)
    (hc : c.kind.isWord) (hdepth : 16 * c.rest.length + 16 ≤ n + 1) :
    Tracks (fun ts => Completable .primary (t :: ts)) (fun k => Parser.loop (k + 1)) n c := by
  have hclosed := Token.spelled_keyword .endK
  have hkind : (Token.ofKeyword .endK).kind = .keyword .endK := rfl
  refine .of_current (fun k y _ => by rw [Parser.loop]) ?_
  -- a loop needs no body: `end` may stand behind the condition
  refine .bind ((ih.sequence hc (by omega)).mono fun ts h => ?_) ?_
  · exact h.after [] _ hclosed fun condition us hus => ⟨_, .emptyLoop ht hus hkind⟩
  intro condition x ts hread hts hx
  have hcondition := ((sound n).sequence hread).derives hts
  have hle := Cursor.length_le_of_before hts
  dsimp only
  by_cases hdo : x.kind = .keyword .doK
  · refine .of_current (fun k y hy => by rw [Cursor.kind_congr hy, if_pos hdo]) ?_
    refine .operand hx (by simp [hdo]) (fun y hy hword => ?_) (sound n).sequence
      (fun us h => ?_) fun body z us hbody _ hz => .takeKeyword hz ?_ fun y _ _ hword' =>
        .pure hword' (Expr.loop condition body)
    · have hlength := Cursor.length_lt_of_before_cons hy
      exact ih.sequence hword (by omega)
    · obtain ⟨vs, body, hbody, hvs⟩ := h
      exact .of_tokens (.loop ht hcondition hdo hbody hkind) (by simp)
        (List.forall_mem_append.mpr ⟨hvs, hclosed⟩)
    · exact .of_tokens (.loop ht hcondition hdo hbody hkind) (by simp) hclosed
  · refine .of_current (fun k y hy => by rw [Cursor.kind_congr hy, if_neg hdo]) ?_
    refine .takeKeyword hx ?_ fun y _ _ hword => .pure hword (Expr.loop condition .null)
    exact .of_tokens (.emptyLoop ht hcondition hkind) (by simp) hclosed

/-- The arrow in front of the body of a function, if there is one. -/
theorem arrow {K : List Token → Prop} {G : Production Expr} (hc : c.kind.isWord)
    (hG : ∀ y ts, OptionalArrow ts → c = y.before ts → y.kind.isWord →
      Tracks (fun us => K (ts ++ us)) G n y) :
    Tracks K (fun k y => if y.kind = .symbol .arrow then y.advance >>= G k
      else pure y >>= G k) n c := by
  by_cases harrow : c.kind = .symbol .arrow
  · refine .of_current (fun k y hy => by rw [Cursor.kind_congr hy, if_pos harrow]) ?_
    exact .advance hc (by simp [harrow]) fun y => hG y [c.current] (.present harrow)
  · refine .of_current (fun k y hy => by rw [Cursor.kind_congr hy, if_neg harrow]) ?_
    exact hG c [] .absent rfl hc

theorem function_succ (ih : Local n) {t : Token} (ht : t.kind = .keyword .funK)
    (hc : c.kind.isWord) (hdepth : 16 * c.rest.length + 16 ≤ n + 1) :
    Tracks (fun ts => Completable .primary (t :: ts)) (fun k => Parser.function (k + 1)) n c := by
  have hclosed := Token.spelled_keyword .endK
  have hkind : (Token.ofKeyword .endK).kind = .keyword .endK := rfl
  refine .of_current (fun k y _ => by rw [Parser.function]) ?_
  refine .bind (.takeName? hc) ?_
  intro name x ns hread hns hx
  obtain ⟨ns', hname, hns'⟩ := takeName?_eq_ok hread
  obtain rfl := Cursor.before_inj (hns.symm.trans hns')
  have hle₁ := Cursor.length_le_of_before hns
  -- up to here brackets and an `end` would do, with nothing between them
  refine .takeSymbol hx ?_ fun y hopen hy hword => ?_
  · have hempty := Derives.func ht hname (rfl : (Token.ofSymbol .openParen).kind = _) .nil .nil
      (rfl : (Token.ofSymbol .closeParen).kind = _) .absent (.sequence .noItem) hkind
    exact .of_tokens hempty (by simp) (List.forall_mem_cons.mpr
      ⟨Token.spelled_ofSymbol .openParen,
        List.forall_mem_cons.mpr ⟨Token.spelled_ofSymbol .closeParen, hclosed⟩⟩)
  have hlt := Cursor.length_lt_of_before_cons hy
  refine .bind ((tracks_parameters hword (by omega)).mono ?_) ?_
  · -- the parameters bring their bracket along, so only the `end` is missing
    rintro ps ⟨us, params, vs, right, hvs, hparams, hdistinct, -, hright, hus⟩
    have hempty := Derives.func ht hname hopen hparams hdistinct hright .absent
      (.sequence .noItem) hkind
    refine .of_tokens hempty ?_ (List.forall_mem_append.mpr ⟨hus, hclosed⟩)
    have hsplit : ps ++ (us ++ [Token.ofKeyword .endK]) =
        vs ++ right :: [Token.ofKeyword .endK] := by
      rw [← List.append_assoc, hvs, List.append_assoc]
      rfl
    simp [hsplit]
  intro params z ps' hread' hps' hz
  obtain ⟨ps, right, hparams, hdistinct, -, hright, hps⟩ := parameters_eq_ok hread'
  obtain rfl := Cursor.before_inj (hps'.symm.trans hps)
  have hle₂ := Cursor.length_le_of_before hps
  refine arrow hz fun w arrow harrow hw hword' => ?_
  have hle₃ := Cursor.length_le_of_before hw
  refine .bind ((ih.sequence hword' (by omega)).mono fun ts h => ?_) ?_
  · obtain ⟨us, body, hbody, hus⟩ := h
    exact .of_tokens (.func ht hname hopen hparams hdistinct hright harrow hbody hkind) (by simp)
      (List.forall_mem_append.mpr ⟨hus, hclosed⟩)
  intro body v ts hread'' hts hv
  have hbody := ((sound n).sequence hread'').derives hts
  refine .takeKeyword hv ?_ fun u _ _ hword'' => ?_
  · exact .of_tokens (.func ht hname hopen hparams hdistinct hright harrow hbody hkind) (by simp)
      hclosed
  · cases name with
    | none => exact .pure hword'' (Expr.func params body)
    | some name => exact .pure hword'' (Expr.store name (.func params body))

theorem block_succ (ih : Local n) {t : Token} (ht : t.kind = .keyword .blockK)
    (hc : c.kind.isWord) (hdepth : 16 * c.rest.length + 16 ≤ n + 1) :
    Tracks (fun ts => Completable .primary (t :: ts)) (fun k => Parser.block (k + 1)) n c := by
  have hclosed := Token.spelled_keyword .endK
  have hkind : (Token.ofKeyword .endK).kind = .keyword .endK := rfl
  refine .of_current (fun k y _ => by rw [Parser.block]) ?_
  refine .bind (.takeName? hc) ?_
  intro label x ls hread hls hx
  obtain ⟨ls', hlabel, hls'⟩ := takeName?_eq_ok hread
  obtain rfl := Cursor.before_inj (hls.symm.trans hls')
  have hle := Cursor.length_le_of_before hls
  -- behind the label an empty body would do
  refine .takeKeyword hx ?_ fun y hdo hy hword => ?_
  · have hempty := Derives.block ht hlabel (rfl : (Token.ofKeyword .doK).kind = _)
      (.sequence .noItem) hkind
    exact .of_tokens hempty (by simp)
      (List.forall_mem_cons.mpr ⟨Token.spelled_ofKeyword .doK, hclosed⟩)
  have hlength := Cursor.length_lt_of_before_cons hy
  refine .bind ((ih.sequence hword (by omega)).mono fun ts h => ?_) ?_
  · obtain ⟨us, body, hbody, hus⟩ := h
    exact .of_tokens (.block ht hlabel hdo hbody hkind) (by simp)
      (List.forall_mem_append.mpr ⟨hus, hclosed⟩)
  intro body z ts hread' hts hz
  have hbody := ((sound n).sequence hread').derives hts
  refine .takeKeyword hz ?_ fun w _ _ hword' => .pure hword' (Expr.block label body)
  exact .of_tokens (.block ht hlabel hdo hbody hkind) (by simp) hclosed

end Local

/-- Whatever the depth, if it is enough for the tokens ahead. -/
theorem tracks_productions (n : Nat) : Local n := by
  induction n with
  | zero => constructor <;> intros <;> omega
  | succ n ih =>
    exact
      { sequence := fun hc h => (ih.sequence_succ hc h).succ
        statements := fun hc h => (ih.statements_succ hc h).succ
        expression := fun hc h => (ih.expression_succ hc h).succ
        disjunction := fun hc h => (ih.disjunction_succ hc h).succ
        disjunctionRest := fun hc h => (ih.disjunctionRest_succ hc h).succ
        conjunction := fun hc h => (ih.conjunction_succ hc h).succ
        conjunctionRest := fun hc h => (ih.conjunctionRest_succ hc h).succ
        comparison := fun hc h => (ih.comparison_succ hc h).succ
        sum := fun hc h => (ih.sum_succ hc h).succ
        sumRest := fun hc h => (ih.sumRest_succ hc h).succ
        product := fun hc h => (ih.product_succ hc h).succ
        productRest := fun hc h => (ih.productRest_succ hc h).succ
        power := fun hc h => (ih.power_succ hc h).succ
        term := fun hc h => (ih.term_succ hc h).succ
        termRest := fun hc h => (ih.termRest_succ hc h).succ
        list := fun hc h => (ih.list_succ hc h).succ
        primary := fun hc h => (ih.primary_succ hc h).succ
        conditional := fun hc h => (ih.conditional_succ hc h).succ
        loop := fun ht hc h => (ih.loop_succ ht hc h).succ
        function := fun ht hc h => (ih.function_succ ht hc h).succ
        block := fun ht hc h => (ih.block_succ ht hc h).succ }

end Parser

end CalcScript
