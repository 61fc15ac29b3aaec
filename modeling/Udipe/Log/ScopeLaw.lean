import Udipe.Log.Scope

/-!
# The law of tracked scopes

Every scope brings back the tracker and the logger that it started with, whatever runs in it. Only a
log can end the process, and does so exactly when it stands outside a scope of its function, has no
logger or a placeholder for its level.
-/

namespace Udipe

open Checked Function

section

variable {bias address func levels : ℕ} {within : List ScopePlace}
  {topFunc logger logger' context : Option ℕ} {s t u : ThreadState} {env : ScopeEnv}
  {start : ScopeStart} {event : ScopeEvent} {stop : ScopeStop} {p q : Prop}

@[simp] theorem openScopes_body (guard : ℕ) :
    openScopes (.body guard :: within) = openScopes within + 1 :=
  List.countP_cons_of_pos rfl

@[simp] theorem openScopes_destructor (guard : ℕ) :
    openScopes (.destructor guard :: within) = openScopes within :=
  List.countP_cons_of_neg Bool.false_ne_true

@[simp] theorem openScopes_nil : openScopes [] = 0 := rfl

/-! ## What is recorded -/

/-- The depth is that of the open scopes around, above the bias, and the end of a scope finds what
its start found. -/
def ScopeObservation.Lawful (bias : ℕ) (o : ScopeObservation) : Prop :=
  o.depth = bias + openScopes o.within ∧
    ∀ before after, o.event = .ended before after → after = before

/-- Lawful observations are made after `s`. -/
def Extends (bias : ℕ) (s : ThreadState) (trace : List ScopeObservation) : Prop :=
  ∃ new, trace = s.trace ++ new ∧ ∀ o ∈ new, o.Lawful bias

theorem Extends.of_eq {trace : List ScopeObservation} (h : trace = s.trace) :
    Extends bias s trace :=
  ⟨[], by rw [h, List.append_nil], by simp⟩

theorem Extends.trans {trace : List ScopeObservation} (hst : Extends bias s t.trace)
    (ht : Extends bias t trace) : Extends bias s trace := by
  obtain ⟨new, hnew, hlawful⟩ := hst
  obtain ⟨new', hnew', hlawful'⟩ := ht
  refine ⟨new ++ new', by rw [hnew', hnew, List.append_assoc], fun o ho => ?_⟩
  exact (List.mem_append.mp ho).elim (hlawful o) (hlawful' o)

theorem Extends.observe (hdepth : s.view.nestingDepth = bias + openScopes within)
    (hended : ∀ before after, event = .ended before after → after = before) :
    Extends bias s (s.observe within event).trace :=
  ⟨_, rfl, fun o ho => by
    obtain rfl := List.mem_singleton.mp ho
    exact ⟨hdepth, hended⟩⟩

/-- The failures of a log. -/
def ScopeFailure.OfLog (failure : ScopeFailure) : Prop :=
  failure = .outsideLocalScope ∨ failure = .noLogger ∨ failure = .nullLogger ∨
    failure = .invalidLevel

/-! ## Computations that only a log can stop -/

/-- From `s`, the computation ends with `P` if `passes`, and otherwise a log stops it. What is
recorded is lawful either way. -/
def Runs {α : Type} (bias : ℕ) (s : ThreadState) (passes : Prop) (P : α → Prop)
    (x : Except ScopeStop α) : Prop :=
  Ends (fun a => passes ∧ P a)
    (fun stop => ¬ passes ∧ stop.failure.OfLog ∧ Extends bias s stop.trace) x

theorem runs_pure {α : Type} {P : α → Prop} {a : α} (hp : p) (h : P a) :
    Runs bias s p P (pure a : Except ScopeStop α) :=
  ⟨hp, h⟩

theorem Runs.congr {α : Type} {P : α → Prop} {x : Except ScopeStop α} (h : Runs bias s p P x)
    (hpq : p ↔ q) : Runs bias s q P x := by
  rwa [← propext hpq]

theorem Runs.mono {α : Type} {P P' : α → Prop} {x : Except ScopeStop α} (h : Runs bias s p P x)
    (hP : ∀ a, P a → P' a) : Runs bias s p P' x :=
  Ends.mono h fun a ha => ⟨ha.1, hP a ha.2⟩

/-- One computation after another, from what the first leaves. -/
theorem Runs.bind {α β : Type} {P : α → Prop} {Q : β → Prop} {x : Except ScopeStop α}
    {f : α → Except ScopeStop β} (hx : Runs bias s p P x)
    (hf : ∀ a, P a → ∃ t : ThreadState, Extends bias s t.trace ∧ Runs bias t q Q (f a)) :
    Runs bias s (p ∧ q) Q (x >>= f) := by
  cases x with
  | error stop =>
      obtain ⟨hp, hlog, htrace⟩ := hx
      exact ⟨fun h => hp h.1, hlog, htrace⟩
  | ok a =>
      obtain ⟨hp, ha⟩ := hx
      obtain ⟨t, hst, hrest⟩ := hf a ha
      rw [ok_bind]
      cases hfa : f a with
      | ok b =>
          rw [hfa] at hrest
          exact ⟨⟨hp, hrest.1⟩, hrest.2⟩
      | error stop =>
          rw [hfa] at hrest
          exact ⟨fun h => hrest.1 h.2, hrest.2.1, hst.trans hrest.2.2⟩

theorem Runs.bind_pure {α β : Type} {P : α → Prop} {Q : β → Prop} {x : Except ScopeStop α} {f : α → β}
    (h : Runs bias s p P x) (hf : ∀ a, P a → Q (f a)) :
    Runs bias s p Q (x >>= fun a => pure (f a)) :=
  ends_bind h fun a ha => ends_pure ⟨ha.1, hf a ha.2⟩

theorem runs_map {α β : Type} {Q : β → Prop} {x : Except ScopeStop α} {f : α → β}
    (h : Runs bias s p (fun a => Q (f a)) x) : Runs bias s p Q (f <$> x) :=
  ends_map (Q := fun b => p ∧ Q b) h

/-- What runs after `t` runs after `s`, from where `t` comes. -/
theorem Runs.of_extends {α : Type} {P : α → Prop} {x : Except ScopeStop α} (h : Runs bias t p P x)
    (hst : Extends bias s t.trace) : Runs bias s p P x := by
  cases x with
  | ok a => exact h
  | error stop => exact ⟨h.1, h.2.1, hst.trans h.2.2⟩

/-- The check of a log. -/
theorem runs_ensure {cond : Bool} {failure : ScopeFailure} (hlog : failure.OfLog) :
    Runs bias s (cond = true) (fun _ => True) (ensure cond (s.stop failure)) := by
  cases cond with
  | true => exact ⟨rfl, trivial⟩
  | false => exact ⟨Bool.false_ne_true, hlog, .of_eq rfl⟩

theorem runs_assertion {enabled cond : Bool} {failure : ScopeFailure} (hlog : failure.OfLog) :
    Runs bias s ((!enabled || cond) = true) (fun _ => True)
      (assertion enabled cond (s.stop failure)) :=
  runs_ensure hlog

/-- A check that always passes. -/
theorem runs_assertion_of_true {enabled cond : Bool} {stop : ScopeStop} (h : cond = true) :
    Runs bias s True (fun _ => True) (assertion enabled cond stop) := by
  rw [assertion_of_true enabled stop h]
  exact ⟨trivial, trivial⟩

/-! ## What a scope leaves behind -/

/-- From `s` to `t`, all scopes that have been started have ended, and the logger may have changed.
Guards below `address` are as they were. -/
structure Balanced (bias address : ℕ) (logger : Option ℕ) (s t : ThreadState) : Prop where
  view : t.view = { s.view with threadLogger := logger }
  guards : ∀ a < address, t.guards a = s.guards a
  traced : Extends bias s t.trace

theorem Balanced.refl (s : ThreadState) : Balanced bias address s.view.threadLogger s s :=
  ⟨rfl, fun _ _ => rfl, .of_eq rfl⟩

theorem Balanced.trans (hst : Balanced bias address logger s t)
    (htu : Balanced bias address logger' t u) : Balanced bias address logger' s u :=
  ⟨by rw [htu.view, hst.view], fun a ha => (htu.guards a ha).trans (hst.guards a ha),
    hst.traced.trans htu.traced⟩

theorem Balanced.observe (hdepth : s.view.nestingDepth = bias + openScopes within)
    (hended : ∀ before after, event = .ended before after → after = before) :
    Balanced bias address s.view.threadLogger s (s.observe within event) :=
  ⟨rfl, fun _ _ => rfl, .observe hdepth hended⟩

theorem Balanced.setLogger (h : Balanced bias address logger s t) (logger' : Option ℕ) :
    Balanced bias address logger' s (t.setLogger logger') :=
  ⟨by rw [ThreadState.setLogger, h.view], h.guards, h.traced⟩

/-- Where code starts to run: how deep, below which function's scope, with which logger, and with
all guards in use below the address of the next. -/
structure Enters (bias address : ℕ) (within : List ScopePlace) (topFunc logger : Option ℕ)
    (s : ThreadState) : Prop where
  depth : s.view.nestingDepth = bias + openScopes within
  topFunc : s.topFunc = topFunc
  logger : s.view.threadLogger = logger
  below : ∀ guard, s.view.topScope = some guard → guard < address

/-- What is balanced brings back the place where it started. -/
theorem Enters.after (h : Enters bias address within topFunc logger s)
    (hst : Balanced bias address logger' s t) : Enters bias address within topFunc logger' t where
  depth := by rw [hst.view, ← h.depth]
  topFunc := by
    rw [← h.topFunc, ThreadState.topFunc, ThreadState.topFunc, hst.view]
    cases htop : s.view.topScope with
    | none => rfl
    | some guard => simp only [Option.map_some, hst.guards guard (h.below guard htop)]
  logger := by rw [hst.view]
  below := by
    intro guard htop
    rw [hst.view] at htop
    exact h.below guard htop

/-- What runs in a scope leaves it as it was entered, with `levels` still to be left. -/
def BodyBalanced (bias address : ℕ) (within : List ScopePlace) (topFunc logger : Option ℕ)
    (passes : Prop) (levels : ℕ) (body : ThreadState → Except ScopeStop (ℕ × ThreadState)) : Prop :=
  ∀ s, Enters bias address within topFunc logger s →
    Runs bias s passes (fun result => result.1 = levels ∧ Balanced bias address logger s result.2)
      (body s)

/-! ## Logs -/

theorem levelPasses_of_ne_default {level : LogLevel} (hlevel : level ≠ .default) :
    env.levelPasses level logger = logger.isSome := by
  cases logger with
  | none => rfl
  | some logger => simp [ScopeEnv.levelPasses, hlevel]

/-- `log_enabled` answers when the log has a logger and a level. -/
theorem logEnabled_runs (env : ScopeEnv) (level : LogLevel) (s : ThreadState) :
    Runs bias s (env.levelPasses level s.view.threadLogger = true) (fun _ => True)
      (logEnabled env level s) := by
  have hstop : ∀ failure : ScopeFailure, failure.OfLog →
      (s.stop failure).failure.OfLog ∧ Extends bias s (s.stop failure).trace :=
    fun failure hlog => ⟨hlog, .of_eq rfl⟩
  rw [logEnabled, validateLog]
  cases hlogger : s.view.threadLogger with
  | none =>
      cases env.build.assertions with
      | true => exact ⟨Bool.false_ne_true, hstop .noLogger (.inr (.inl rfl))⟩
      | false => exact ⟨Bool.false_ne_true, hstop .nullLogger (.inr (.inr (.inl rfl)))⟩
  | some logger =>
      by_cases hlevel : level = .default
      · have hinvalid := hstop .invalidLevel (.inr (.inr (.inr rfl)))
        subst hlevel
        rw [ScopeEnv.levelPasses]
        cases hbuild : env.build.assertions with
        | true => exact ⟨Bool.false_ne_true, hinvalid⟩
        | false =>
            -- the minimum of the logger decides whether the level is looked at
            rw [if_neg Bool.false_ne_true, pure_bind, ofOption_some, ok_bind]
            split_ifs with hmin
            · exact ⟨decide_eq_true hmin, trivial⟩
            · exact ⟨fun h => hmin (of_decide_eq_true h), hinvalid⟩
      · rw [levelPasses_of_ne_default hlevel]
        have hvalid : (if env.build.assertions = true then do
            ensure (some logger).isSome (s.stop .noLogger)
            ensure (level != .default) (s.stop .invalidLevel)
            else pure ()) = (.ok () : Except ScopeStop Unit) := by
          split_ifs
          · exact ensure_of_true _ (bne_iff_ne.mpr hlevel)
          · rfl
        rw [hvalid, ok_bind, ofOption_some, ok_bind]
        split_ifs with hmin
        · exact ⟨rfl, trivial⟩
        · cases level with
          | default => exact absurd rfl hlevel
          | trace => exact ⟨rfl, trivial⟩
          | debug => exact ⟨rfl, trivial⟩
          | info => exact ⟨rfl, trivial⟩
          | warn => exact ⟨rfl, trivial⟩
          | error => exact ⟨rfl, trivial⟩

/-- A log runs exactly when it passes its checks, and changes nothing. -/
theorem udipeLog_runs (env : ScopeEnv) (func : ℕ) (level : LogLevel)
    (h : Enters bias address within topFunc logger s) :
    Runs bias s (env.logPasses func topFunc logger level = true)
      (Balanced bias address logger s) (udipeLog env func level within s) := by
  have hrest : Runs bias s _ (Balanced bias address logger s)
      (logEnabled env level s >>= fun enabled => pure (s.observe within (.log level enabled))) :=
    (logEnabled_runs env level s).bind_pure fun enabled _ =>
      h.logger ▸ .observe h.depth fun _ _ he => nomatch he
  have hinside : Runs bias s ((!env.build.assertions || s.isInsideLocalScope func) = true)
      (fun _ => True) (assertion env.build.assertions (s.isInsideLocalScope func)
        (s.stop .outsideLocalScope)) :=
    runs_assertion (.inl rfl)
  refine (hinside.bind fun _ _ => ⟨s, .of_eq rfl, hrest⟩).congr ?_
  rw [ScopeEnv.logPasses, ThreadState.isInsideLocalScope, h.topFunc, h.logger, Bool.and_eq_true]

/-- A log in a scope of its own function only needs a logger. -/
theorem logPasses_local {level : LogLevel} (hlevel : level ≠ .default) :
    env.logPasses func (some func) logger level = logger.isSome := by
  rw [ScopeEnv.logPasses, levelPasses_of_ne_default hlevel, beq_self_eq_true, Bool.or_true,
    Bool.true_and]

/-! ## Scopes -/

/-- The callback of a scope. -/
def ScopeStart.callback : ScopeStart → Option ScopeDestructor
  | .scope => none
  | .withDestructor destructor _ => some (.user destructor)
  | .logger _ => some .restoreThreadLogger
  | .loggedFunction => some .debugFunctionReturn

/-- The logger after a destructor. -/
def ScopeDestructor.loggerAfter (destructor : ScopeDestructor) (context logger : Option ℕ) :
    Option ℕ :=
  match destructor with
  | restoreThreadLogger => context
  | debugFunctionReturn | user _ => logger

/-- `t` is what `s` becomes when a scope of a function starts: its guard knows all that is needed to
come back. -/
structure Started (start : ScopeStart) (address func : ℕ) (s t : ThreadState) : Prop where
  topScope : t.view.topScope = some address
  nestingDepth : t.view.nestingDepth = s.view.nestingDepth + 1
  logger : t.view.threadLogger = start.loggerInside s.view.threadLogger
  func : (t.guards address).func = func
  callback : (t.guards address).destructor = start.callback
  nextScope : (t.guards address).nextScope = s.view.topScope
  context : start.callback = none → (t.guards address).destructorContext = none ∧
    start.loggerInside s.view.threadLogger = s.view.threadLogger
  restores : ∀ d, start.callback = some d →
    d.loggerAfter (t.guards address).destructorContext (start.loggerInside s.view.threadLogger) =
      s.view.threadLogger
  guards : ∀ a < address, t.guards a = s.guards a
  trace : t.trace = s.trace

theorem scopeStart_started : Started start address func s (scopeStart start address func s) := by
  have hbelow : ∀ (guard : ScopeGuard), ∀ a < address, update s.guards address guard a
      = s.guards a :=
    fun guard a ha => update_of_ne ha.ne ..
  cases start <;>
    refine ⟨rfl, rfl, rfl, ?_, ?_, ?_, ?_, ?_, hbelow _, rfl⟩ <;>
    simp [scopeStart, ThreadState.pushGuard, ThreadState.setLogger, ScopeStart.callback,
      ScopeStart.loggerInside, ScopeDestructor.loggerAfter]

/-- The body of a scope is entered below a guard of its own function. -/
theorem Started.enters (h : Started start address func s t)
    (hs : Enters bias address within topFunc logger s) :
    Enters bias (address + 1) (.body address :: within) (some func) (start.loggerInside logger)
      t where
  depth := by rw [h.nestingDepth, hs.depth, openScopes_body, Nat.add_assoc]
  topFunc := by rw [ThreadState.topFunc, h.topScope, Option.map_some, h.func]
  logger := by rw [h.logger, hs.logger]
  below := by
    intro guard htop
    obtain rfl : address = guard := Option.some.inj (h.topScope.symm.trans htop)
    exact address.lt_succ_self

/-- The two ways to find the guard agree, as the scope is the top of the list when its body has
ended. -/
theorem guardPointer_eq {compiler : ScopeCompiler} (h : s.view.topScope = some address) :
    guardPointer compiler address s = .ok address := by
  cases compiler with
  | gnuc => rfl
  | msvc => rw [guardPointer, h, ofOption_some]

theorem logStart_runs (env : ScopeEnv)
    (h : Enters bias address within (some func) (start.loggerInside logger) s) :
    Runs bias s (start.logPasses logger = true)
      (Balanced bias address (start.loggerInside logger) s) (logStart env start func within s) := by
  have hskip : Balanced bias address (start.loggerInside logger) s s := h.logger ▸ .refl s
  have hlog := (udipeLog_runs env func .debug h).congr
    (q := (start.loggerInside logger).isSome = true) (by rw [logPasses_local (by decide)])
  cases start with
  | scope => exact runs_pure rfl hskip
  | withDestructor => exact runs_pure rfl hskip
  | logger => exact hlog
  | loggedFunction => exact hlog

/-- A destructor runs as it should: the scopes that it starts have ended, and only
`restore_thread_logger` changes the logger. -/
def CallsBalanced (bias address : ℕ) (within : List ScopePlace) (topFunc logger : Option ℕ)
    (passes : Prop) (call : CallDestructor) (destructor : ScopeDestructor) : Prop :=
  ∀ context t, Enters bias address within topFunc logger t →
    Runs bias t passes (Balanced bias address (destructor.loggerAfter context logger) t)
      (call destructor context t)

/-- The destructor of a scope, if it has one, brings back the logger from before the scope. -/
theorem runDestructor_runs {call : CallDestructor} {guard : ScopeGuard}
    (hcall : ∀ d, guard.destructor = some d →
      CallsBalanced bias address within topFunc logger p call d ∧
        d.loggerAfter guard.destructorContext logger = logger')
    (hnone : guard.destructor = none → p ∧ logger = logger')
    (h : Enters bias address within topFunc logger t) :
    Runs bias t p (Balanced bias address logger' t) (runDestructor call guard t) := by
  rw [runDestructor]
  cases hd : guard.destructor with
  | none =>
      obtain ⟨hp, rfl⟩ := hnone hd
      exact runs_pure hp (h.logger ▸ .refl t)
  | some d =>
      obtain ⟨hbalanced, rfl⟩ := hcall d hd
      exact hbalanced _ t h

/-- The finalization of a guard, after the body of its scope has been left. `t` is the state right
after the start, `u` the one after the body. -/
theorem scopeGuardFinalize_runs {call : CallDestructor}
    (hs : Enters bias address within topFunc logger s) (hstart : Started start address func s t)
    (hbody : Balanced bias (address + 1) (start.loggerInside logger) t u)
    (hcall : ∀ d, start.callback = some d → CallsBalanced bias (address + 1)
      (.destructor address :: within) (some func) (start.loggerInside logger) p call d)
    (hnone : start.callback = none → p) :
    Runs bias u p (fun v => v.view = s.view ∧ (∀ a < address, v.guards a = s.guards a) ∧
      Extends bias u v.trace) (scopeGuardFinalize env call within address u) := by
  have hguard : u.guards address = t.guards address := hbody.guards address address.lt_succ_self
  have hdepth : u.view.nestingDepth = s.view.nestingDepth + 1 := by
    rw [hbody.view, hstart.nestingDepth]
  have hcallback : (u.guards address).destructor = start.callback := hguard ▸ hstart.callback
  have hcontext : ((u.guards address).destructor.isSome ||
      (u.guards address).destructorContext.isNone) = true := by
    rw [hcallback]
    cases hc : start.callback with
    | none => rw [hguard, (hstart.context hc).1]; rfl
    | some d => rfl
  -- the state in which the destructor is called
  let w : ThreadState :=
    { u with view := { u.view with nestingDepth := u.view.nestingDepth - 1 } }
  have hwdepth : w.view.nestingDepth = s.view.nestingDepth := Nat.sub_eq_of_eq_add hdepth
  have hw : Enters bias (address + 1) (.destructor address :: within) (some func)
      (start.loggerInside logger) w := by
    have hu := (hstart.enters hs).after hbody
    exact ⟨by rw [hwdepth, hs.depth, openScopes_destructor], hu.topFunc, hu.logger, hu.below⟩
  have hfinalizing : Balanced bias (address + 1) (start.loggerInside logger) w
      (w.observe (.destructor address :: within) .finalizing) :=
    hw.logger ▸ .observe hw.depth (fun _ _ h => nomatch h)
  have hdestructor : Runs bias (w.observe (.destructor address :: within) .finalizing) p
      (Balanced bias (address + 1) logger (w.observe (.destructor address :: within) .finalizing))
      (runDestructor call (u.guards address)
        (w.observe (.destructor address :: within) .finalizing)) := by
    refine runDestructor_runs (fun d hd => ?_) (fun hd => ?_) (hw.after hfinalizing)
    · refine ⟨hcall d (hcallback ▸ hd), ?_⟩
      rw [hguard, ← hs.logger]
      exact hstart.restores d (hcallback ▸ hd)
    · refine ⟨hnone (hcallback ▸ hd), ?_⟩
      rw [← hs.logger]
      exact (hstart.context (hcallback ▸ hd)).2
  rw [scopeGuardFinalize, assertion_of_true _ _ (decide_eq_true (hdepth ▸ Nat.le_add_left 1 _)),
    ok_bind]
  have hchecked : Runs bias u True (fun _ => True) (assertion env.build.assertions
      ((u.guards address).destructor.isSome || (u.guards address).destructorContext.isNone)
      ((w.observe (.destructor address :: within) .finalizing).stop .contextWithoutDestructor)) :=
    runs_assertion_of_true hcontext
  refine (hchecked.bind fun _ _ => ⟨w.observe (.destructor address :: within) .finalizing,
    hfinalizing.traced, hdestructor.bind_pure fun v hv => ⟨?_, fun a ha => ?_, ?_⟩⟩).congr
      (by rw [true_and])
  · -- the guard still names the scope below
    have hnext : (v.guards address).nextScope = s.view.topScope := by
      rw [hv.guards address address.lt_succ_self, ← hstart.nextScope, ← hguard]
      rfl
    show ScopeView.mk (v.guards address).nextScope v.view.nestingDepth v.view.threadLogger = s.view
    rw [hnext, hv.view, ← hs.logger]
    exact congrArg (ScopeView.mk _ · _) hwdepth
  · exact (hv.guards a (by omega)).trans ((hbody.guards a (by omega)).trans (hstart.guards a ha))
  · exact hfinalizing.traced.trans hv.traced

/-- A scope brings back the tracker and the logger, if its body and its destructor bring back those
of the scope. -/
theorem withScope_balanced (env : ScopeEnv) (call : CallDestructor)
    {body : ThreadState → Except ScopeStop (ℕ × ThreadState)}
    (hbody : BodyBalanced bias (address + 1) (.body address :: within) (some func)
      (start.loggerInside logger) p levels body)
    (hcall : ∀ d, start.callback = some d → CallsBalanced bias (address + 1)
      (.destructor address :: within) (some func) (start.loggerInside logger) q call d)
    (hnone : start.callback = none → q) :
    BodyBalanced bias address within topFunc logger (start.logPasses logger = true ∧ p ∧ q)
      (levels - 1) (withScope env call start func address within body) := by
  intro s hs
  have hstart : Started start address func s (scopeStart start address func s) := scopeStart_started
  have henters := hstart.enters hs
  have hstarted : Balanced bias (address + 1) (start.loggerInside logger)
      (scopeStart start address func s)
      ((scopeStart start address func s).observe (.body address :: within) .started) :=
    henters.logger ▸ .observe henters.depth (fun _ _ h => nomatch h)
  have hlog := logStart_runs env (henters.after hstarted)
  refine (hlog.bind fun t ht => ⟨t, ht.traced, ?_⟩).of_extends
    ((Extends.of_eq hstart.trace).trans hstarted.traced)
  have hleft := hstarted.trans ht
  refine (hbody t (henters.after hleft)).bind ?_
  rintro ⟨left, u⟩ ⟨rfl, hu⟩
  refine ⟨u, hu.traced, ?_⟩
  have hended := hleft.trans hu
  have htop : u.view.topScope = some address := by rw [hended.view, hstart.topScope]
  dsimp only
  rw [guardPointer_eq htop, ok_bind]
  refine (scopeGuardFinalize_runs hs hstart hended hcall hnone).bind_pure
    fun v ⟨hview, hguards, hv⟩ => ⟨rfl, hs.logger ▸ hview, hguards, ?_⟩
  have hsv : Extends bias s v.trace :=
    ((Extends.of_eq hstart.trace).trans hended.traced).trans hv
  refine hsv.trans (.observe (hview ▸ hs.depth) fun before after h => ?_)
  obtain ⟨rfl, rfl⟩ := ScopeEvent.ended.inj h
  exact hview

/-! ## Destructors -/

theorem loggingScope_runs (env : ScopeEnv) (func : ℕ)
    (h : Enters bias address within topFunc logger s) :
    Runs bias s (logger.isSome = true) (Balanced bias address logger s)
      (loggingScope env func address within s) := by
  have hbody : BodyBalanced bias (address + 1) (.body address :: within) (some func)
      (ScopeStart.scope.loggerInside logger) (env.logPasses func (some func) logger .debug = true) 0
      (fun s => (0, ·) <$> udipeLog env func .debug (.body address :: within) s) :=
    fun s hs => runs_map ((udipeLog_runs env func .debug hs).mono fun _ ht => ⟨rfl, ht⟩)
  have hscope := withScope_balanced env (fun _ _ s => pure s) (q := True) hbody
    (fun _ h => nomatch h) (fun _ => trivial) s h
  rw [logPasses_local (by decide)] at hscope
  exact runs_map ((hscope.congr (by simp [ScopeStart.logPasses])).mono fun _ ht => ht.2)

/-- The destructors of the logger and any destructor of the user. -/
theorem callDestructor_balanced (env : ScopeEnv) {passes : ℕ → Bool}
    {user : ℕ → ThreadState → Except ScopeStop (ℕ × ThreadState)}
    (huser : ∀ callee, BodyBalanced bias address within topFunc (start.loggerInside logger)
      (passes callee = true) levels (user callee))
    (destructor : ScopeDestructor) (hd : start.callback = some destructor) :
    CallsBalanced bias address within topFunc (start.loggerInside logger)
      (start.destructorPasses passes logger = true) (callDestructor env address within user)
      destructor := by
  intro context t ht
  cases start with
  | scope => exact nomatch hd
  | withDestructor callee =>
      obtain rfl := Option.some.inj hd
      exact runs_map ((huser callee t ht).mono fun _ hv => hv.2)
  | logger =>
      obtain rfl := Option.some.inj hd
      exact (loggingScope_runs env env.restoreThreadLogger ht).bind_pure
        fun _ hv => hv.setLogger context
  | loggedFunction =>
      obtain rfl := Option.some.inj hd
      exact loggingScope_runs env env.debugFunctionReturn ht

end

/-! ## Commands -/

/-- Every command brings back the tracker and the logger, unless a log stops it. By induction on the
command, for every place in the nesting of scopes. -/
theorem ScopeCommand.exec_balanced (env : ScopeEnv) (bias : ℕ) (command : ScopeCommand) :
    ∀ (func address : ℕ) (within : List ScopePlace) (topFunc logger : Option ℕ),
      BodyBalanced bias address within topFunc logger
        (command.passes env func topFunc logger = true) command.levels
        (command.exec env func address within) := by
  induction command with
  | skip => exact fun _ _ _ _ _ s hs => runs_pure rfl ⟨rfl, hs.logger ▸ .refl s⟩
  | log level =>
      exact fun func _ _ _ _ s hs =>
        runs_map ((udipeLog_runs env func level hs).mono fun _ ht => ⟨rfl, ht⟩)
  | leave levels => exact fun _ _ _ _ _ s hs => runs_pure rfl ⟨rfl, hs.logger ▸ .refl s⟩
  | seq first second ihfirst ihsecond =>
      intro func address within topFunc logger s hs
      refine ((ihfirst func address within topFunc logger s hs).bind
        (q := (first.levels != 0 || second.passes env func topFunc logger) = true) ?_).congr
          (Bool.and_eq_true_iff.symm)
      rintro ⟨_, t⟩ ⟨rfl, ht⟩
      refine ⟨t, ht.traced, ?_⟩
      dsimp only
      rw [ScopeCommand.levels]
      split_ifs with hlevels
      · have hsecond := ihsecond func address within topFunc logger t (hs.after ht)
        refine (hsecond.mono fun _ hu => ⟨hu.1, ht.trans hu.2⟩).congr ?_
        rw [hlevels, bne_self_eq_false, Bool.false_or]
      · exact runs_pure (by rw [bne_iff_ne.mpr hlevels, Bool.true_or]) ⟨rfl, ht⟩
  | block body ih =>
      exact fun func address within topFunc logger s hs =>
        (ih func address within topFunc logger s hs).bind_pure fun _ ⟨hlevels, ht⟩ =>
          ⟨congrArg (· - 1) hlevels, ht⟩
  | call callee body ih =>
      exact fun _ address within topFunc logger s hs =>
        (ih callee address within topFunc logger s hs).bind_pure fun _ ⟨_, ht⟩ => ⟨rfl, ht⟩
  | scope start destructor body ihdestructor ihbody =>
      intro func address within topFunc logger s hs
      have hdestructor := callDestructor_balanced env fun callee =>
        ihdestructor callee (address + 1) (.destructor address :: within) (some func)
          (start.loggerInside logger)
      refine (withScope_balanced env _ (ihbody func (address + 1) (.body address :: within)
        (some func) (start.loggerInside logger)) hdestructor (fun hnone => ?_) s hs).congr ?_
      · cases start with
        | scope => rfl
        | withDestructor | logger | loggedFunction => exact nomatch hnone
      · rw [ScopeCommand.passes, Bool.and_eq_true, Bool.and_eq_true]

/-- What holds of all that a thread does: the depth is the inherited one plus the number of open
scopes whose destructor has not started, a scope ends with the tracker and the logger that it
started with, and a log from a scope of a destructor has the depth of the logs in the body. -/
structure ScopeLaw (bias : ℕ) (trace : List ScopeObservation) : Prop where
  depth : ∀ o ∈ trace, o.depth = bias + openScopes o.within
  ended : ∀ o ∈ trace, ∀ before after, o.event = .ended before after → after = before
  logs : ∀ o ∈ trace, ∀ o' ∈ trace, ∀ guard guard' within,
    o.event.isLog → o.within = .body guard :: within →
      o'.event.isLog → o'.within = .body guard' :: .destructor guard :: within →
        o'.depth = o.depth

theorem Extends.scopeLaw {bias : ℕ} {s : ThreadState} {trace : List ScopeObservation}
    (h : Extends bias s trace) (hs : s.trace = []) : ScopeLaw bias trace := by
  obtain ⟨new, rfl, hlawful⟩ := h
  rw [hs, List.nil_append]
  refine ⟨fun o ho => (hlawful o ho).1, fun o ho => (hlawful o ho).2, ?_⟩
  intro o ho o' ho' guard guard' within _ hbody _ hdestructor
  rw [(hlawful o ho).1, (hlawful o' ho').1, hbody, hdestructor, openScopes_body, openScopes_body,
    openScopes_destructor]

/-- For every tree of scopes on a new thread, the law holds of all that it does. It brings back the
tracker and the logger, exactly when all logs that it reaches pass their checks; otherwise it ends
at the check of a log, and at no other. -/
theorem scopes_balanced (env : ScopeEnv) (parent : LoggerParentState) (guards : ℕ → ScopeGuard)
    (func address : ℕ) (command : ScopeCommand) :
    ∃ s, loggerInitChild env parent (newThread guards) = .ok s ∧
      ((∃ levels t, command.exec env func address [] s = .ok (levels, t)) ↔
        command.passes env func none parent.logger = true) ∧
      (∀ levels t, command.exec env func address [] s = .ok (levels, t) →
        t.view = s.view ∧ ScopeLaw parent.scopeDepth t.trace) ∧
      ∀ stop, command.exec env func address [] s = .error stop →
        stop.failure.OfLog ∧ ScopeLaw parent.scopeDepth stop.trace := by
  let s : ThreadState := ⟨⟨none, parent.scopeDepth, parent.logger⟩, guards, []⟩
  have hinit : loggerInitChild env parent (newThread guards) = .ok s := by
    rw [loggerInitChild, assertion_of_true _ _ (by rfl), ok_bind]
    rfl
  have hs : Enters parent.scopeDepth address [] none parent.logger s :=
    ⟨rfl, rfl, rfl, fun _ h => nomatch h⟩
  have hruns := command.exec_balanced env parent.scopeDepth func address [] none parent.logger s hs
  refine ⟨s, hinit, ?_⟩
  cases hexec : command.exec env func address [] s with
  | ok result =>
      rw [hexec] at hruns
      obtain ⟨hpasses, -, hbalanced⟩ := hruns
      refine ⟨iff_of_true ⟨_, _, rfl⟩ hpasses, ?_, fun _ h => nomatch h⟩
      intro levels t h
      obtain rfl := Except.ok.inj h
      exact ⟨hbalanced.view, hbalanced.traced.scopeLaw rfl⟩
  | error stop =>
      rw [hexec] at hruns
      obtain ⟨hfails, hlog, htrace⟩ := hruns
      refine ⟨iff_of_false (fun ⟨_, _, h⟩ => nomatch h) hfails, fun _ _ h => (nomatch h), ?_⟩
      intro _ h
      obtain rfl := Except.error.inj h
      exact ⟨hlog, htrace.scopeLaw rfl⟩

/-- The depths of the logs. -/
def logDepths (trace : List ScopeObservation) : List ℕ :=
  (trace.filter (·.event.isLog)).map (·.depth)

/-- A debug build whose loggers want all logs up to a depth of 4. -/
def debugEnv : ScopeEnv where
  compiler := .gnuc
  build := ⟨true⟩
  expensiveLogs := false
  loggers := fun _ => ⟨.debug, 4⟩
  restoreThreadLogger := 100
  debugFunctionReturn := 101

/-- A logger scope with a call of a logged function, which returns from a scope with a destructor
that logs. -/
def loggedReturn : ScopeCommand :=
  .scope (.logger 7) .skip (.seq (.log .info)
    (.call 1 (.scope .loggedFunction .skip
      (.scope (.withDestructor 2 none) (.scope .scope .skip (.log .warn))
        (.seq (.log .debug) (.leave 2))))))

/-- On a child of a thread at depth 2: the destructor logs at the depth of the scope that is left,
the return of the function at that of its call. -/
theorem scopes_balanced_loggedReturn :
    ∃ s levels t, loggerInitChild debugEnv ⟨none, 2⟩ (newThread fun _ => ⟨none, 0, none, none⟩)
        = .ok s ∧
      loggedReturn.exec debugEnv 0 0 [] s = .ok (levels, t) ∧ t.view = s.view ∧
      ScopeLaw 2 t.trace ∧ logDepths t.trace = [3, 3, 4, 5, 5, 4, 3] := by
  obtain ⟨s, hs, hends, hlaw, -⟩ := scopes_balanced debugEnv ⟨none, 2⟩
    (fun _ => ⟨none, 0, none, none⟩) 0 0 loggedReturn
  obtain ⟨levels, t, hexec⟩ := hends.mpr (by decide)
  have hdepths : (loggedReturn.exec debugEnv 0 0 [] s).map (logDepths ·.2.trace)
      = .ok [3, 3, 4, 5, 5, 4, 3] := by
    obtain rfl : _ = s := Except.ok.inj hs
    rfl
  rw [hexec] at hdepths
  exact ⟨s, levels, t, hs, hexec, (hlaw levels t hexec).1, (hlaw levels t hexec).2,
    Except.ok.inj hdepths⟩

/-- A function that logs without a scope of its own ends the process, below a logger scope as well. -/
example : (ScopeCommand.exec debugEnv (.scope (.logger 7) .skip (.call 1 (.log .info))) 0 0 []
    (newThread fun _ => ⟨none, 0, none, none⟩)).mapError (·.failure)
      = .error .outsideLocalScope := rfl

end Udipe
