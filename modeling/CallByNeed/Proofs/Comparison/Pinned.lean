import CallByNeed.Proofs.Comparison.Meanings
import CallByNeed.Proofs.Source.Names
import CallByNeed.Proofs.Source.Units

/-!
# Code that leaves pinned names alone

In a world with pinned names, code that binds only what it may keeps them bound as they are. Here:
what calling a pinned name finds, and that expressions which keep to their leeway are evaluated as
written alike in both runs (`Interpreter.keeping_rel`).
-/

namespace CallByNeed

variable {W : World} {n : Nat} {H : Host} {H' : Nat → Host} {env : EnvId} {limit : Nat}

/-! ## Pinned functions -/

namespace Store.Pinned

variable {s : Store} {f : Value} {name : Symbol}

/-- Only the global environment matters for a pinned name. -/
lemma functionIn (h : s.Pinned W) (host : Host) (hname : W.pinned name)
    (hf : Store.globals.lookup name = some f) (hfunction : f.category?.isSome) :
    ∀ envs : List EnvId, globalEnv ∈ envs → host.functionIn name envs s = .ok f s
  | env :: envs, hmem => by
    unfold Host.functionIn
    rw [Eval.get_bind_apply]
    by_cases henv : env = globalEnv
    · subst henv
      have hforce : host.force f = pure f := by
        cases f <;> first | rfl | cases hfunction
      rw [h.global name hname, hf]
      dsimp only
      rw [hforce, pure_bind, if_pos hfunction]
      rfl
    · rw [h.inner env name henv hname]
      exact functionIn h host hname hf hfunction envs ((List.mem_cons.1 hmem).resolve_left
        (Ne.symm henv))

/-- A call of a pinned name is one of the function of that name. -/
lemma findFunction (h : s.Pinned W) (host : Host) (hname : W.pinned name)
    (hf : Store.globals.lookup name = some f) (hfunction : f.category?.isSome)
    (henv : env < s.environments.size) : host.findFunction env name s = .ok f s := by
  unfold Host.findFunction
  rw [Eval.get_bind_apply]
  exact h.functionIn host hname hf hfunction _ (h.around env henv)

end Store.Pinned

namespace EvalRel

variable {α β : Type} {R : Nat → α → β → Prop} {A : Eval α} {B : Nat → Eval β} {f : Value}
  {name : Symbol}

section

variable (hp : W.pins) (henv : W.Valid n env) (hname : W.pinned name)
  (hf : Store.globals.lookup name = some f) (hfunction : f.category?.isSome)
include hp henv hname hf hfunction

/-- The first run looks up a pinned function and goes on with it. -/
lemma pinned_left {host : Host} {g : Value → Eval α} (h : EvalRel W n R (g f) B) :
    EvalRel W n R (host.findFunction env name >>= g) B := by
  intro s t hst hn
  rw [Eval.bind_apply, (hst.left hp).findFunction host hname hf hfunction
    (Nat.lt_of_lt_of_le (henv hp) hn)]
  exact h s t hst hn

/-- The second run looks up a pinned function and goes on with it. -/
lemma pinned_right {host : Nat → Host} {g : Nat → Value → Eval β}
    (h : EvalRel W n R A fun k => g k f) :
    EvalRel W n R A fun k => (host k).findFunction env name >>= g k := by
  intro s t hst hn
  refine (h s t hst hn).congr fun k => ?_
  show ((host k).findFunction env name >>= g k) t = _
  rw [Eval.bind_apply, (hst.right hp).findFunction (host k) hname hf hfunction
    (hst.size ▸ Nat.lt_of_lt_of_le (henv hp) hn)]

end

end EvalRel

/-! ## Keeping to what may be bound -/

/-- What the leeway leaves to expressions may be bound, and what keeps to it may be evaluated. -/
structure World.Heeds (W : World) (l : Leeway) : Prop where
  forms : W.pins → l.forms = false
  formal : ∀ name, l.formal name = true → W.Bindable name
  target : ∀ name, l.target name = true → W.Settable name
  code : ∀ e, e.keepsTo l = true → W.code (.expr e) (.expr e)

namespace World.Heeds

variable {l : Leeway} {callee : Expr} {args : List (Arg Expr)}

lemma targets (h : W.Heeds l) {c : Call} (hc : l.allows c = true) : W.Targets c where
  assign hcallee _ name he hname := h.target name (Leeway.target_of_assign hc hcallee he hname)
  loop hcallee name he := h.target name (Leeway.target_of_loop hc hcallee he)

/-- A name that stands for a value is that of a variable that may be read. -/
lemma readable (h : W.Heeds l) {name : Symbol} (he : (Expr.symbol name).keepsTo l = true)
    (hdots : name.isEllipsis = false) : W.Readable name := by
  intro hp
  rw [Expr.keepsTo, h.forms hp, Bool.false_or, Bool.not_eq_true'] at he
  refine ⟨?_, ?_, ?_⟩
  · rintro rfl
    cases he
  · rintro rfl
    cases he
  · rintro rfl
    cases hdots

end World.Heeds

/-- Units that are compiled from the expression in the two ways count as the same. -/
def UnitsAlike (W : World) (o o' : CompilerOptions) (e : Expr) : Prop :=
  ∀ u u', CompiledFrom o e u → CompiledFrom o' e u' → W.code (.unit u) (.unit u')

namespace CompiledLiteral

variable {o o' : CompilerOptions} {f : Function} {u u' : FunctionUnit} (hnamed : ¬ W.named)
include hnamed

/-- Function units that were compiled from one literal are related if the units of its parts are, and
its formals may be bound. -/
lemma related_of_parts
    (hformals : ∀ x ∈ f.formals, W.Bindable x.name ∧ ∀ e, x.default = some e → UnitsAlike W o o' e)
    (hbody : UnitsAlike W o o' f.body) (h : CompiledLiteral o f u) (h' : CompiledLiteral o' f u') :
    FunctionRel W u u' := by
  refine ⟨fun hn => absurd hn hnamed, ?_, hbody _ _ h.body h'.body⟩
  refine forall₂_of_common h.formals h'.formals fun x hx y y' hy hy' => ?_
  obtain ⟨hbindable, hdefault⟩ := hformals x hx
  exact ⟨hy.name.trans hy'.name.symm, hy.name ▸ hbindable,
    optionRel_of_common hy.default hy'.default fun e he u u' => hdefault e he u u'⟩

/-- A literal that keeps to its leeway is compiled to related function units. -/
lemma related {l : Leeway} (hW : W.Heeds l) (hf : f.keepsTo l = true)
    (hcode : ∀ e u u', e.keepsTo l = true → CompiledFrom o e u → CompiledFrom o' e u' →
      W.code (.unit u) (.unit u'))
    (h : CompiledLiteral o f u) (h' : CompiledLiteral o' f u') : FunctionRel W u u' := by
  obtain ⟨hformals, hbody⟩ := Expr.keepsTo_function.1 hf
  refine h.related_of_parts hnamed (fun x hx => ?_) (fun u u' => hcode _ u u' hbody) h'
  obtain ⟨hname, hdefault⟩ := hformals x hx
  exact ⟨hW.formal _ hname, fun e he u u' => hcode e u u' (hdefault e he)⟩

end CompiledLiteral

/-! ## Expressions as written -/

namespace Interpreter

variable {l : Leeway}

/-- What is found under a name is applied alike to the arguments of a call. -/
lemma found_rel (hW : W.Lawful) (hH : HostRel W H H') (henv : W.Valid n env) {call : Call}
    (hargs : ∀ a ∈ call.args, W.Passes a) (htargets : W.Targets call) {name : Symbol}
    (hname : call.callee = .symbol name) {v v' : Value} (hv : FoundRel W name n v v') :
    EvalRel W n (ValueRel W) (applyTo limit H env call v)
      fun k => applyTo limit (H' k) env call v' := by
  cases hv with
  | value hv hf => exact applyTo_rel hW hH henv hargs hv hf
  | form s hs hform hv hv' =>
    subst hv hv' hform
    exact Special.invoke_form_rel hH henv (fun a ha => (hargs a ha).code) htargets hs hname

/-- **Expressions that keep to their leeway are evaluated alike as written.** -/
theorem keeping_rel (hW : W.Lawful) (hnamed : ¬ W.named) (hl : W.Heeds l)
    (hcode : ∀ e u u', e.keepsTo l = true → CompiledFrom {} e u → CompiledFrom {} e u' →
      W.code (.unit u) (.unit u'))
    (hH : HostRel W H H') (henv : W.Valid n env) {e : Expr} (he : e.keepsTo l = true) :
    EvalRel W n (ValueRel W) (eval limit H env e) fun k => eval limit (H' k) env e := by
  cases e with
  | symbol name =>
    simp only [eval]
    split
    · exact .fail False.elim
    · rename_i hdots
      exact Meaning.lookup_rel hH (hl.readable he (by simpa using hdots))
  | function formals body =>
    refine closure_rel henv ⟨formals, body⟩ fun u j hu => ?_
    have hliteral := Compiling.compiledLiteral_of_functionLiteral hu
    exact hliteral.related (f := ⟨formals, body⟩) hnamed hl he hcode hliteral
  | call f args =>
    obtain ⟨hf, hallowed, hargs⟩ := Expr.keepsTo_call.1 he
    have hpasses : ∀ a ∈ args, W.Passes a := fun a ha => ⟨hl.code _ (hargs a ha),
      fun name hname hdots => hl.readable (hname ▸ hargs a ha) hdots⟩
    have hcomputed : f.keepsTo l = true → EvalRel W n (ValueRel W)
        (H (.eval env f) >>= callee.callable ⟨f, args⟩ >>= applyTo limit H env ⟨f, args⟩)
        fun k => H' k (.eval env f) >>= callee.callable ⟨f, args⟩
          >>= applyTo limit (H' k) env ⟨f, args⟩ := by
      intro hf
      refine ((hH n _ _ (.code (hl.code f hf) henv)).bind fun _ _ _ _ hv => callable_rel hv).bind
        fun m hm v v' hv => ?_
      exact applyTo_rel hW hH (henv.mono hm) hpasses hv.1 hv.2
    simp only [eval, apply_eq]
    unfold callee Call.name?
    cases hsymbol : f.symbol? with
    | none => exact hcomputed (hf hsymbol)
    | some name =>
      obtain rfl : f = .symbol name := by
        cases f <;> first | cases hsymbol; rfl | cases hsymbol
      dsimp only
      split
      · rename_i hdots
        obtain rfl : name = .ellipsis := of_decide_eq_true hdots
        exact hcomputed (by rw [Expr.keepsTo, show Symbol.assigns .ellipsis = false from rfl]; simp)
      · refine (Host.findFunction_rel hH name).bind fun m hm v v' hv => ?_
        exact found_rel hW hH (henv.mono hm) hpasses (hl.targets hallowed) rfl hv
  | _ => exact EvalRel.pure fun _ _ => .ofExpr _

end Interpreter

end CallByNeed
