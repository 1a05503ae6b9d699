import TailLisp.Command.Arguments

/-!
# TailLisp.Command.Help

**Help texts** of the command line.
-/

namespace TailLisp.Command

/-- How the command is called. -/
def usage : String :=
  "usage: letloop [-h] [-c CODE] [-e FILE] [--config PATH] [-v]\n"
    ++ "               \x7bexport,check\x7d ...\n"

/-- Help on the whole command. -/
def mainHelp : String :=
  usage
    ++ "\nletloop - destructuring and loop/recur for a Lisp on Python\n"
    ++ "\npositional arguments:\n"
    ++ "  \x7bexport,check\x7d        Available commands\n"
    ++ "    export              Print the Python for a file\n"
    ++ "    check               Compile a file without running it\n"
    ++ "\noptions:\n"
    ++ "  -h, --help            show this help message and exit\n"
    ++ "  -c CODE, --command CODE\n"
    ++ "                        Execute letloop code directly (like python -c)\n"
    ++ "  -e FILE, --export FILE\n"
    ++ "                        Export letloop file to Python code and print to stdout\n"
    ++ "  --config PATH         Path to a letloop.it file (default: search upward from\n"
    ++ "                        the file or cwd)\n"
    ++ "  -v, --verbose         Log compiler passes and print tracebacks on errors\n"
    ++ "\nexamples:\n"
    ++ "  letloop script.ll                 Execute a letloop file\n"
    ++ "  letloop -c \"(println (+ 1 2 3))\"  Evaluate letloop code directly\n"
    ++ "  letloop -e script.ll              Export letloop file to Python code\n"
    ++ "  letloop check script.ll           Report compile errors without running\n"
    ++ "        \n"

/-- Help on a subcommand. -/
def subHelp (sub : Subcommand) : String :=
  "usage: letloop " ++ sub.name ++ " [-h] file\n"
    ++ "\npositional arguments:\n"
    ++ "  file        letloop source file\n"
    ++ "\noptions:\n"
    ++ "  -h, --help  show this help message and exit\n"

/-- Help on a topic. -/
def help : Option Subcommand → String
  | some sub => subHelp sub
  | none => mainHelp

/-- What is said about a command line that does not fit the rules. -/
def misuseText : String := usage ++ "letloop: error: the arguments do not fit\n"

end TailLisp.Command
