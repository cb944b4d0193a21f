/-!
# Texts of the command line
-/

namespace ExprCompiler.CommandLine

def programName : String := "toyc"

def version : String := "0.1.0"

def usage : String :=
  "usage: toyc [-h] [-o OUTPUT] [--emit-llvm PATH] [--target TRIPLE] [--no-eval]\n" ++
  "            [--quiet-ir] [-v] [--version]\n" ++
  "            [source]\n"

def help : String :=
  usage ++
  "\n" ++
  "Compile ToyC source into a native object file\n" ++
  "\n" ++
  "positional arguments:\n" ++
  "  source                Source file to compile (default: standard input)\n" ++
  "\n" ++
  "options:\n" ++
  "  -h, --help            show this help message and exit\n" ++
  "  -o OUTPUT, --output OUTPUT\n" ++
  "                        Object file to write (default: output.o)\n" ++
  "  --emit-llvm PATH      Also write the textual LLVM IR of the module to PATH\n" ++
  "  --target TRIPLE       Target triple to generate code for (default: host)\n" ++
  "  --no-eval             Do not JIT-evaluate top-level expressions\n" ++
  "  --quiet-ir            Do not print the IR of each compiled unit\n" ++
  "  -v, --verbose         Enable debug logging\n" ++
  "  --version             show program's version number and exit\n" ++
  "\n" ++
  "Examples:\n" ++
  "    toyc program.toy                      # Compile to output.o\n" ++
  "    toyc program.toy -o program.o         # Choose the object file name\n" ++
  "    toyc program.toy --emit-llvm out.ll   # Also dump the textual IR\n" ++
  "    toyc                                  # Read from stdin (prompts on a terminal)\n" ++
  "        \n"

def versionLine : String := programName ++ " " ++ version ++ "\n"

def errorText (message : String) : String :=
  usage ++ programName ++ ": error: " ++ message ++ "\n"

end ExprCompiler.CommandLine
