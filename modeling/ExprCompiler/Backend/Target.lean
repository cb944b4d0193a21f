import ExprCompiler.Backend.Error

/-!
# Targets

A target is named by a triple of architecture, vendor and system, of which
the architecture alone decides whether code can be generated for it. The
architectures listed stand for those that a toolchain registers: it may well
know others, or other names for these, and they are refused here.
-/

namespace ExprCompiler.Target

def host : String := "x86_64-unknown-linux-gnu"

def architectures : List String :=
  ["x86_64", "i386", "i686", "aarch64", "arm", "armv7", "riscv32", "riscv64", "wasm32", "wasm64",
    "mips", "mips64", "powerpc64", "powerpc64le", "s390x", "sparcv9"]

def architecture (triple : String) : String := String.ofList (triple.toList.takeWhile (· != '-'))

/-- The target of a triple; without one it is the host. -/
def ofTriple? (triple : Option String) : Except BackendError String :=
  match triple with
  | none => .ok host
  | some t =>
    if t = "" then .ok host
    else if architectures.contains (architecture t) then .ok t
    else
      .error <| .target t <| .words <|
        "No available targets are compatible with triple \"" ++ t ++ "\""

end ExprCompiler.Target
