import Udipe.Future.Status
import Udipe.Lib.Checked
import Mathlib.Logic.Function.Basic

/-!
# Tracked scopes

Reference: `scope.h`, `scope.c`, `log.h`, `log.c`.

A tracked scope puts a guard on the stack of its function and links it at the top of the thread's
list of guards. When the scope is left, in whatever way, the guard is finalized: the depth goes
down, the destructor of the scope runs, and the list loses its top. A logger scope and a logged
function are scopes with destructors that log from a scope of their own.

A log needs a scope of its own function at the top of the list, and a logger. Without them it ends
the process: by an assertion, or by a null pointer where assertions are compiled out.

A command is what a thread does, as a tree of scopes and calls. The memory of the guards is that of
the stack: what is above the stack pointer is left from earlier scopes, and is overwritten by later
ones. The trace records the depth at each log and at each change of the depth, along with the scopes
around it. A process that ends at a check leaves its trace behind.
-/

namespace Udipe

open Checked Function

/-- `udipe_log_level_t`. -/
inductive LogLevel where
  | default
  | trace
  | debug
  | info
  | warn
  | error
deriving DecidableEq, Repr

/-- The values of the enumeration, by which levels are compared. -/
def LogLevel.code : LogLevel → ℕ
  | default => 0
  | trace => 1
  | debug => 2
  | info => 3
  | warn => 4
  | error => 5

/-- `logger_t`, without the callback. -/
structure Logger where
  minLevel : LogLevel
  maxDebugDepth : ℕ
deriving DecidableEq, Repr

/-- The callbacks that a guard can have. That of the user is known by its `__func__`. -/
inductive ScopeDestructor where
  | restoreThreadLogger
  | debugFunctionReturn
  | user (func : ℕ)
deriving DecidableEq, Repr

/-- `scope_guard_t`. -/
structure ScopeGuard where
  nextScope : Option ℕ
  func : ℕ
  destructor : Option ScopeDestructor
  destructorContext : Option ℕ
deriving DecidableEq, Repr

/-- Where a thread is: in the body of a scope or in its destructor. The scope is known by the
address of its guard. -/
inductive ScopePlace where
  | body (guard : ℕ)
  | destructor (guard : ℕ)
deriving DecidableEq, Repr

/-- The place is in the body of a scope. -/
def ScopePlace.isBody : ScopePlace → Bool
  | body _ => true
  | destructor _ => false

/-- How many of the scopes around are open and have not started their destructor. -/
def openScopes (within : List ScopePlace) : ℕ := within.countP ScopePlace.isBody

/-- `udipe_scope_tracker` and `udipe_thread_logger`. -/
structure ScopeView where
  topScope : Option ℕ
  nestingDepth : ℕ
  threadLogger : Option ℕ
deriving DecidableEq, Repr

/-- What is recorded: the start of a scope, a log and whether it reaches the callback of its logger,
the start of the finalization, and the end with what was there before the scope and after it. -/
inductive ScopeEvent where
  | started
  | log (level : LogLevel) (emitted : Bool)
  | finalizing
  | ended (before after : ScopeView)
deriving DecidableEq, Repr

/-- The event is a log. -/
def ScopeEvent.isLog : ScopeEvent → Bool
  | log _ _ => true
  | started | finalizing | ended _ _ => false

/-- An event, the scopes around it from the inside out, and the depth at the time. -/
structure ScopeObservation where
  within : List ScopePlace
  depth : ℕ
  event : ScopeEvent
deriving DecidableEq, Repr

/-- A thread. -/
structure ThreadState where
  view : ScopeView
  guards : ℕ → ScopeGuard
  trace : List ScopeObservation

/-- Why the process ends. -/
inductive ScopeFailure where
  /-- `assert(udipe_scope_tracker.nesting_depth == 0)` in `bias_scope_depth`. -/
  | depthBiased
  /-- `assert(udipe_scope_tracker.nesting_depth >= 1)` in `scope_guard_finalize`. -/
  | noOpenScope
  /-- `assert(guard->destructor || (guard->destructor_context == NULL))`. -/
  | contextWithoutDestructor
  /-- A null pointer in place of a guard. -/
  | nullGuard
  /-- `assert(IS_INSIDE_LOCAL_SCOPE)` in `udipe_log` and `udipe_logf`. -/
  | outsideLocalScope
  /-- `assert(udipe_thread_logger)` in `validate_log`. -/
  | noLogger
  /-- The read of `udipe_thread_logger->min_level` through a null pointer. -/
  | nullLogger
  /-- `exit(EXIT_FAILURE)` in `validate_log` and `log_enabled`. -/
  | invalidLevel
deriving DecidableEq, Repr

/-- The end of a process: why, and what it did before. -/
structure ScopeStop where
  failure : ScopeFailure
  trace : List ScopeObservation
deriving DecidableEq, Repr

/-- The two ways in which a compiler runs code at the end of a scope. -/
inductive ScopeCompiler where
  /-- `__attribute__((__cleanup__))`, with a pointer to the guard. -/
  | gnuc
  /-- `__finally`, with the top of the list. -/
  | msvc
deriving DecidableEq, Repr

/-- What a thread runs in: the compiler and the build, the loggers by their address, and the
`__func__` of the two destructors of `log.h`. -/
structure ScopeEnv where
  compiler : ScopeCompiler
  build : Build
  /-- `UDIPE_ENABLE_EXPENSIVE_LOGS` is defined. -/
  expensiveLogs : Bool
  loggers : ℕ → Logger
  restoreThreadLogger : ℕ
  debugFunctionReturn : ℕ

/-- The macros that start a scope. -/
inductive ScopeStart where
  /-- `SCOPE_START`. -/
  | scope
  /-- `SCOPE_START_WITH_DESTRUCTOR`. -/
  | withDestructor (destructor : ℕ) (context : Option ℕ)
  /-- `LOGGER_START`. -/
  | logger (logger : ℕ)
  /-- `LOGGED_FUNCTION_START`. -/
  | loggedFunction
deriving DecidableEq, Repr

/-- What a thread does. -/
inductive ScopeCommand where
  | skip
  /-- `udipe_log` or `udipe_logf`. -/
  | log (level : LogLevel)
  /-- `break`, `return` or `goto`, out of a number of the scopes and blocks around. -/
  | leave (levels : ℕ)
  | seq (first second : ScopeCommand)
  /-- A loop or another block that is not tracked. -/
  | block (body : ScopeCommand)
  /-- A call of the function with this `__func__`. -/
  | call (func : ℕ) (body : ScopeCommand)
  /-- A scope, with the code of the destructor that a `withDestructor` is given. -/
  | scope (start : ScopeStart) (destructor body : ScopeCommand)
deriving DecidableEq, Repr

namespace ThreadState

variable (s : ThreadState)

/-- Records an event. -/
def observe (within : List ScopePlace) (event : ScopeEvent) : ThreadState :=
  { s with trace := s.trace ++ [⟨within, s.view.nestingDepth, event⟩] }

/-- The process ends here. -/
def stop (failure : ScopeFailure) : ScopeStop := ⟨failure, s.trace⟩

/-- `udipe_scope_tracker.top_scope->func`. -/
def topFunc : Option ℕ := s.view.topScope.map fun guard => (s.guards guard).func

/-- `SCOPE_START_WITH_DESTRUCTOR` in a function, for a guard at an address. -/
def pushGuard (address func : ℕ) (destructor : Option ScopeDestructor) (context : Option ℕ) :
    ThreadState :=
  { s with
    guards := update s.guards address ⟨s.view.topScope, func, destructor, context⟩
    view := { s.view with
      topScope := some address
      nestingDepth := s.view.nestingDepth + 1 } }

/-- `udipe_thread_logger = logger`. -/
def setLogger (logger : Option ℕ) : ThreadState :=
  { s with view := { s.view with threadLogger := logger } }

/-- `IS_INSIDE_LOCAL_SCOPE`, in a function. -/
def isInsideLocalScope (func : ℕ) : Bool := s.topFunc == some func

end ThreadState

/-- `validate_log`. -/
def validateLog (env : ScopeEnv) (level : LogLevel) (s : ThreadState) : Except ScopeStop Unit :=
  if env.build.assertions then do
    ensure s.view.threadLogger.isSome (s.stop .noLogger)
    ensure (level != .default) (s.stop .invalidLevel)
  else pure ()

/-- `log_enabled`. -/
def logEnabled (env : ScopeEnv) (level : LogLevel) (s : ThreadState) : Except ScopeStop Bool := do
  validateLog env level s
  let logger ← ofOption (s.stop .nullLogger) s.view.threadLogger
  if level.code < (env.loggers logger).minLevel.code then pure false
  else
    match level with
    | .trace | .debug =>
        pure ((env.build.assertions || env.expensiveLogs) &&
          decide (s.view.nestingDepth ≤ (env.loggers logger).maxDebugDepth))
    | .info | .warn | .error => pure true
    | .default => .error (s.stop .invalidLevel)

/-- `udipe_log` and `udipe_logf`, in a function. -/
def udipeLog (env : ScopeEnv) (func : ℕ) (level : LogLevel) (within : List ScopePlace)
    (s : ThreadState) : Except ScopeStop ThreadState := do
  assertion env.build.assertions (s.isInsideLocalScope func) (s.stop .outsideLocalScope)
  let enabled ← logEnabled env level s
  pure (s.observe within (.log level enabled))

/-- The start of a scope in a function. -/
def scopeStart (start : ScopeStart) (address func : ℕ) (s : ThreadState) : ThreadState :=
  match start with
  | .scope => s.pushGuard address func none none
  | .withDestructor destructor context => s.pushGuard address func (some (.user destructor)) context
  | .logger logger =>
      (s.setLogger (some logger)).pushGuard address func (some .restoreThreadLogger)
        s.view.threadLogger
  | .loggedFunction => s.pushGuard address func (some .debugFunctionReturn) (some func)

/-- The log with which logger scopes and logged functions start. -/
def logStart (env : ScopeEnv) (start : ScopeStart) (func : ℕ) (within : List ScopePlace)
    (s : ThreadState) : Except ScopeStop ThreadState :=
  match start with
  | .scope | .withDestructor _ _ => pure s
  | .logger _ | .loggedFunction => udipeLog env func .debug within s

/-- The call of a destructor. -/
abbrev CallDestructor : Type :=
  ScopeDestructor → Option ℕ → ThreadState → Except ScopeStop ThreadState

/-- The middle of `scope_guard_finalize`. -/
def runDestructor (call : CallDestructor) (guard : ScopeGuard) (s : ThreadState) :
    Except ScopeStop ThreadState :=
  match guard.destructor with
  | some destructor => call destructor guard.destructorContext s
  | none => pure s

/-- `scope_guard_finalize`. -/
def scopeGuardFinalize (env : ScopeEnv) (call : CallDestructor) (within : List ScopePlace)
    (guard : ℕ) (s : ThreadState) : Except ScopeStop ThreadState := do
  assertion env.build.assertions (decide (1 ≤ s.view.nestingDepth)) (s.stop .noOpenScope)
  let s := { s with view := { s.view with nestingDepth := s.view.nestingDepth - 1 } }
  let s := s.observe (.destructor guard :: within) .finalizing
  assertion env.build.assertions
    ((s.guards guard).destructor.isSome || (s.guards guard).destructorContext.isNone)
    (s.stop .contextWithoutDestructor)
  let s ← runDestructor call (s.guards guard) s
  pure { s with view := { s.view with topScope := (s.guards guard).nextScope } }

/-- The guard that is finalized. -/
def guardPointer (compiler : ScopeCompiler) (address : ℕ) (s : ThreadState) :
    Except ScopeStop ℕ :=
  match compiler with
  | .gnuc => pure address
  | .msvc => ofOption (s.stop .nullGuard) s.view.topScope

/-- A scope around a body, in a function. The result is how many levels are still to be left. -/
def withScope (env : ScopeEnv) (call : CallDestructor) (start : ScopeStart) (func address : ℕ)
    (within : List ScopePlace) (body : ThreadState → Except ScopeStop (ℕ × ThreadState))
    (s : ThreadState) : Except ScopeStop (ℕ × ThreadState) := do
  let before := s.view
  let s := (scopeStart start address func s).observe (.body address :: within) .started
  let s ← logStart env start func (.body address :: within) s
  let (levels, s) ← body s
  let guard ← guardPointer env.compiler address s
  let s ← scopeGuardFinalize env call within guard s
  pure (levels - 1, s.observe within (.ended before s.view))

/-- `SCOPE_START debugf(..); SCOPE_END`, in a function. -/
def loggingScope (env : ScopeEnv) (func address : ℕ) (within : List ScopePlace)
    (s : ThreadState) : Except ScopeStop ThreadState :=
  Prod.snd <$> withScope env (fun _ _ s => pure s) .scope func address within
    (fun s => (0, ·) <$> udipeLog env func .debug (.body address :: within) s) s

/-- `debug_function_return`. -/
def debugFunctionReturn (env : ScopeEnv) (address : ℕ) (within : List ScopePlace)
    (s : ThreadState) : Except ScopeStop ThreadState :=
  loggingScope env env.debugFunctionReturn address within s

/-- `restore_thread_logger`. -/
def restoreThreadLogger (env : ScopeEnv) (context : Option ℕ) (address : ℕ)
    (within : List ScopePlace) (s : ThreadState) : Except ScopeStop ThreadState := do
  let s ← loggingScope env env.restoreThreadLogger address within s
  pure (s.setLogger context)

/-- The destructors, the user's being given as a function. They run above the guard of their
scope. -/
def callDestructor (env : ScopeEnv) (address : ℕ) (within : List ScopePlace)
    (user : ℕ → ThreadState → Except ScopeStop (ℕ × ThreadState)) : CallDestructor
  | .restoreThreadLogger, context, s => restoreThreadLogger env context address within s
  | .debugFunctionReturn, _, s => debugFunctionReturn env address within s
  | .user func, _, s => Prod.snd <$> user func s

/-- What a command does in a function. The next guard goes to `address`, and the scopes around are
`within`. -/
def ScopeCommand.exec (env : ScopeEnv) :
    ScopeCommand → ℕ → ℕ → List ScopePlace → ThreadState → Except ScopeStop (ℕ × ThreadState)
  | skip, _, _, _, s => pure (0, s)
  | log level, func, _, within, s => (0, ·) <$> udipeLog env func level within s
  | leave levels, _, _, _, s => pure (levels, s)
  | seq first second, func, address, within, s => do
      let (levels, s) ← first.exec env func address within s
      if levels = 0 then second.exec env func address within s else pure (levels, s)
  | block body, func, address, within, s => do
      let (levels, s) ← body.exec env func address within s
      pure (levels - 1, s)
  | call callee body, _, address, within, s => do
      -- whatever the callee leaves, the caller goes on after the call
      let (_, s) ← body.exec env callee address within s
      pure (0, s)
  | scope start destructor body, func, address, within, s =>
      withScope env
        (callDestructor env (address + 1) (.destructor address :: within) fun callee =>
          destructor.exec env callee (address + 1) (.destructor address :: within))
        start func address within (body.exec env func (address + 1) (.body address :: within)) s

/-- `logger_parent_state_t`. -/
structure LoggerParentState where
  logger : Option ℕ
  scopeDepth : ℕ
deriving DecidableEq, Repr

/-- A thread that has just started. -/
def newThread (guards : ℕ → ScopeGuard) : ThreadState where
  view := { topScope := none, nestingDepth := 0, threadLogger := none }
  guards := guards
  trace := []

/-- `logger_init_child`. -/
def loggerInitChild (env : ScopeEnv) (parent : LoggerParentState) (s : ThreadState) :
    Except ScopeStop ThreadState := do
  let s := s.setLogger parent.logger
  assertion env.build.assertions (s.view.nestingDepth == 0) (s.stop .depthBiased)
  pure { s with view := { s.view with nestingDepth := parent.scopeDepth } }

/-! ## Which logs pass their checks -/

/-- The logger of a thread, if there is one, takes a log of this level. With assertions the
placeholder for a default level is none, and without them it has to be below the minimum. -/
def ScopeEnv.levelPasses (env : ScopeEnv) (level : LogLevel) : Option ℕ → Bool
  | none => false
  | some logger =>
      level != .default ||
        (!env.build.assertions && decide (0 < (env.loggers logger).minLevel.code))

/-- A log passes its checks in a function, with the function of the top scope and the logger of the
thread. -/
def ScopeEnv.logPasses (env : ScopeEnv) (func : ℕ) (topFunc logger : Option ℕ)
    (level : LogLevel) : Bool :=
  (!env.build.assertions || topFunc == some func) && env.levelPasses level logger

/-- The logger in a scope. -/
def ScopeStart.loggerInside (start : ScopeStart) (logger : Option ℕ) : Option ℕ :=
  match start with
  | .logger logger => some logger
  | .scope | .withDestructor _ _ | .loggedFunction => logger

/-- The log with which a scope starts has a logger. -/
def ScopeStart.logPasses (start : ScopeStart) (logger : Option ℕ) : Bool :=
  match start with
  | .scope | .withDestructor _ _ | .logger _ => true
  | .loggedFunction => logger.isSome

/-- The logs of a scope's destructor pass their checks, where `user` tells it of the user's. -/
def ScopeStart.destructorPasses (start : ScopeStart) (user : ℕ → Bool) (logger : Option ℕ) :
    Bool :=
  match start with
  | .scope | .logger _ => true
  | .withDestructor callee _ => user callee
  | .loggedFunction => logger.isSome

/-- How many of the levels around a command are left at its end. -/
def ScopeCommand.levels : ScopeCommand → ℕ
  | skip | log _ | call _ _ => 0
  | leave levels => levels
  | seq first second => if first.levels = 0 then second.levels else first.levels
  | block body | scope _ _ body => body.levels - 1

/-- All logs that a command reaches in a function pass their checks, those of the scopes' own starts
and destructors included. -/
def ScopeCommand.passes (env : ScopeEnv) : ScopeCommand → ℕ → Option ℕ → Option ℕ → Bool
  | skip, _, _, _ => true
  | log level, func, topFunc, logger => env.logPasses func topFunc logger level
  | leave _, _, _, _ => true
  | seq first second, func, topFunc, logger =>
      first.passes env func topFunc logger &&
        (first.levels != 0 || second.passes env func topFunc logger)
  | block body, func, topFunc, logger => body.passes env func topFunc logger
  | call callee body, _, topFunc, logger => body.passes env callee topFunc logger
  | scope start destructor body, func, _, logger =>
      start.logPasses logger && (body.passes env func (some func) (start.loggerInside logger) &&
        start.destructorPasses
          (fun callee => destructor.passes env callee (some func) (start.loggerInside logger)) logger)

end Udipe
