import CallByNeed.Proofs.Source.Meaning

/-!
# Meanings by shape

An expression has no other meaning than that of its shape: one statement for each of the shapes. So
two meanings of one expression differ in nothing but the meanings of its parts.
-/

namespace CallByNeed

open Meaning

variable {o o' : CompilerOptions} {limit : Nat} {env : EnvId} {s name : Symbol} {args : List (Arg Expr)}
  {c y n q b e : Expr} {M : Host → Eval Value}

/-- Whether control flow is inlined for a call is no matter of other settings. -/
lemma CompilerOptions.Inlines.congr {callee : Expr} {args : List (Arg Expr)}
    (h : o.Inlines callee args) (ho : o.inlineControlFlow = o'.inlineControlFlow) :
    o'.Inlines callee args := ⟨ho ▸ h.1, h.2⟩

/-- What a call under a name means that control flow is not inlined for: a builtin is called directly,
or the function is looked up. -/
inductive MeansPlain (o : CompilerOptions) (limit : Nat) (env : EnvId) (s : Symbol)
    (args : List (Arg Expr)) : (Host → Eval Value) → Prop
  | primitive {f : Builtin} {A : Host → Eval (List Value)}
    (hs : o.isStaticPrimitive s.name = true) (hf : Builtin.ofName? s.name = some f)
    (h : MeansNow o limit env args A) :
    MeansPlain o limit env s args fun H => do
      let values ← A H
      builtin H env ⟨.symbol s, args⟩ (pure values) f
  | named {passed : List Passed} (hs : o.isStaticPrimitive s.name = false)
    (h : List.Forall₂ (Passes o) (args.map Arg.value) passed) :
    MeansPlain o limit env s args fun H => do
      let f ← H.findFunction env s
      apply limit H env ⟨.symbol s, args⟩ passed f

namespace Means

lemma reading_inv (h : Means o limit env (.symbol name) M) :
    name.isEllipsis = false ∧ M = fun H => lookup H env name := by
  cases h with
  | reading h => exact ⟨h, rfl⟩
  | literal h => cases h

lemma literal_inv (he : e.isConstant = true) (h : Means o limit env e M) :
    M = fun _ => pure (.ofExpr e) := by
  cases h with
  | literal => rfl
  | _ => cases he

lemma closure_inv {formals : List (Formal Expr)} {body : Expr}
    (h : Means o limit env (.function formals body) M) :
    ∃ u, CompiledLiteral o ⟨formals, body⟩ u ∧ M = fun _ => pure (.closure u env) := by
  cases h with
  | closure h => exact ⟨_, h, rfl⟩
  | literal h => cases h

lemma computed_inv {callee : Expr}
    (hcallee : callee.symbol? = none) (h : Means o limit env (.call callee args) M) :
    ∃ C passed, Means o limit env callee C ∧
      List.Forall₂ (Passes o) (args.map Arg.value) passed ∧
      M = fun H => C H >>= fun v => callable H ⟨callee, args⟩ v >>=
        apply limit H env ⟨callee, args⟩ passed := by
  cases h with
  | computed _ _ hc h => exact ⟨_, _, hc, h, rfl⟩
  | literal h => cases h
  | _ => cases hcallee

lemma plain_inv (hplain : ¬ o.Inlines (.symbol s) args)
    (h : Means o limit env (.call (.symbol s) args) M) :
    MeansPlain o limit env s args M := by
  cases h with
  | primitive _ hs hf _ h => exact .primitive hs hf h
  | named _ _ hs _ h => exact .named hs h
  | whether ho hs => exact absurd ⟨ho, .whether hs _ _⟩ hplain
  | choice ho hs => exact absurd ⟨ho, .choice hs _ _ _⟩ hplain
  | loop ho hs hname => exact absurd ⟨ho, .loop hs hname _ _⟩ hplain
  | block ho hs hargs => exact absurd ⟨ho, .block hs hargs⟩ hplain
  | assignment ho hs hname => exact absurd ⟨ho, .assignment hs hname _⟩ hplain
  | literal h => cases h
  | computed h => cases h

/-! ## Inlined control flow -/

section

variable (ho : o.inlineControlFlow = true)
include ho

lemma whether_inv (hs : s = ⟨Special.cond.name⟩)
    (h : Means o limit env (.call (.symbol s) [⟨none, c⟩, ⟨none, y⟩]) M) :
    ∃ C Y, Means o limit env c C ∧ Means o limit env y Y ∧
      M = fun H => branch (C H) (Y H) (pure .null) := by
  cases h with
  | whether _ _ hc hy => exact ⟨_, _, hc, hy, rfl⟩
  | block _ hs' => exact absurd (hs.symm.trans hs') (by decide)
  | assignment _ hs' => exact absurd (hs.symm.trans hs') (by decide)
  | primitive hplain => exact absurd ⟨ho, .whether hs c y⟩ hplain
  | named hplain => exact absurd ⟨ho, .whether hs c y⟩ hplain
  | literal h => cases h
  | computed h => cases h

lemma choice_inv (hs : s = ⟨Special.cond.name⟩)
    (h : Means o limit env (.call (.symbol s) [⟨none, c⟩, ⟨none, y⟩, ⟨none, n⟩]) M) :
    ∃ C Y N, Means o limit env c C ∧ Means o limit env y Y ∧ Means o limit env n N ∧
      M = fun H => branch (C H) (Y H) (N H) := by
  cases h with
  | choice _ _ hc hy hn => exact ⟨_, _, _, hc, hy, hn, rfl⟩
  | block _ hs' => exact absurd (hs.symm.trans hs') (by decide)
  | loop _ hs' => exact absurd (hs.symm.trans hs') (by decide)
  | primitive hplain => exact absurd ⟨ho, .choice hs c y n⟩ hplain
  | named hplain => exact absurd ⟨ho, .choice hs c y n⟩ hplain
  | literal h => cases h
  | computed h => cases h

lemma loop_inv (hs : s = ⟨Special.loop.name⟩) (hname : name.isEllipsis = false)
    (h : Means o limit env (.call (.symbol s) [⟨none, .symbol name⟩, ⟨none, q⟩, ⟨none, b⟩]) M) :
    ∃ Q B, Means o limit env q Q ∧ Means o limit env b B ∧
      M = fun H => Meaning.loop env name (Q H) (B H) := by
  cases h with
  | loop _ _ _ hq hb => exact ⟨_, _, hq, hb, rfl⟩
  | choice _ hs' => exact absurd (hs.symm.trans hs') (by decide)
  | block _ hs' => exact absurd (hs.symm.trans hs') (by decide)
  | primitive hplain => exact absurd ⟨ho, .loop hs hname q b⟩ hplain
  | named hplain => exact absurd ⟨ho, .loop hs hname q b⟩ hplain
  | literal h => cases h
  | computed h => cases h

lemma block_inv (hs : s = ⟨Special.block.name⟩) (hargs : ∀ a ∈ args, a.name = none)
    (h : Means o limit env (.call (.symbol s) args) M) : MeansSteps o limit env args M := by
  cases h with
  | block _ _ _ h => exact h
  | whether _ hs' => exact absurd (hs.symm.trans hs') (by decide)
  | choice _ hs' => exact absurd (hs.symm.trans hs') (by decide)
  | loop _ hs' => exact absurd (hs.symm.trans hs') (by decide)
  | assignment _ hs' => exact absurd (hs.symm.trans hs') (by decide)
  | primitive hplain => exact absurd ⟨ho, .block hs hargs⟩ hplain
  | named hplain => exact absurd ⟨ho, .block hs hargs⟩ hplain
  | literal h => cases h
  | computed h => cases h

lemma assignment_inv (hs : s = ⟨Special.assign.name⟩) (hname : name.isEllipsis = false)
    (h : Means o limit env (.call (.symbol s) [⟨none, .symbol name⟩, ⟨none, e⟩]) M) :
    ∃ A, Means o limit env e A ∧ M = fun H => assign env name (A H) := by
  cases h with
  | assignment _ _ _ h => exact ⟨_, h, rfl⟩
  | whether _ hs' => exact absurd (hs.symm.trans hs') (by decide)
  | block _ hs' => exact absurd (hs.symm.trans hs') (by decide)
  | primitive hplain => exact absurd ⟨ho, .assignment hs hname e⟩ hplain
  | named hplain => exact absurd ⟨ho, .assignment hs hname e⟩ hplain
  | literal h => cases h
  | computed h => cases h

end

end Means

end CallByNeed
