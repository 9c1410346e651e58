/-
  HackAssembler.CommandLine.Help

  What the command line prints about itself.
-/

namespace HackAssembler.CommandLine

/-- Name and version of the program. -/
def versionText : String :=
  "hasm 0.1.0\n"

/-- How the program is called. -/
def usageText : String :=
  "USAGE:\n    hasm [FLAGS] [OPTIONS] <INPUT>\n"

/-- The full help: version, purpose, and all arguments. -/
def helpText : String :=
  versionText
    ++ "Nicolas 'Montessquio' Suarez <nsuarez@kernelstack.net>\n"
    ++ "A two-pass assembler for the Hack 16-bit instruction set.\n\n"
    ++ usageText
    ++ "\nFLAGS:\n"
    ++ "    -h, --help       Prints help information\n"
    ++ "    -d, --show       prints each instruction alongside its encoding to STDOUT\n"
    ++ "    -s, --symbols    prints the final symbol table to STDOUT\n"
    ++ "    -V, --version    Prints version information\n"
    ++ "    -v               Sets the level of verbosity\n"
    ++ "\nOPTIONS:\n"
    ++ "    -o <output>        write output to an outfile instead of the sibling .hack file\n"
    ++ "\nARGS:\n"
    ++ "    <INPUT>    Sets the input .asm file to use\n"

end HackAssembler.CommandLine
