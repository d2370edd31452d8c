import StyleAudit.Support.Condition

/-!
# Scopes of support

Inside support rules the features that their conditions assert count as supported. A scope is the
stack of frames of the rules that are open; each frame holds all keys granted so far, so that
leaving a rule restores what was granted outside.
-/

namespace StyleAudit

/-- The frames of the support rules that are open, the innermost first. Each holds its own keys
and those of the frames around it. -/
structure Scope where
  frames : List (List Feature.Key)
deriving DecidableEq, Repr, Inhabited

namespace Scope

/-- The scope outside of all support rules. -/
def outermost : Scope := ⟨[]⟩

/-- The keys granted in a scope. -/
def keys (s : Scope) : List Feature.Key := s.frames.headD []

/-- The number of support rules that are open. -/
def depth (s : Scope) : Nat := s.frames.length

/-- The scope inside a support rule whose condition asserts the given keys. -/
def enter (s : Scope) (keys : List Feature.Key) : Scope := ⟨(s.keys ++ keys) :: s.frames⟩

/-- The scope outside of the innermost support rule. -/
def leave (s : Scope) : Scope := ⟨s.frames.tail⟩

/-- Whether a feature is granted. -/
def allows (s : Scope) (key : Feature.Key) : Bool := s.keys.contains key

@[simp] theorem leave_enter (s : Scope) (keys : List Feature.Key) : (s.enter keys).leave = s := rfl

@[simp] theorem keys_outermost : outermost.keys = [] := rfl

@[simp] theorem keys_enter (s : Scope) (keys : List Feature.Key) :
    (s.enter keys).keys = s.keys ++ keys := rfl

@[simp] theorem depth_enter (s : Scope) (keys : List Feature.Key) :
    (s.enter keys).depth = s.depth + 1 := rfl

end Scope

namespace Feature.Key

/-- The order in which keys are listed: by the section of their kind, then by code points. -/
def le (a b : Feature.Key) : Bool :=
  if a.1 = b.1 then Text.le a.2 b.2
  else Text.le a.1.sectionName.toList b.1.sectionName.toList

/-- Keys as a set is listed: in order and each once. -/
def listed (keys : List Feature.Key) : List Feature.Key := keys.eraseDups.mergeSort le

end Feature.Key

end StyleAudit
