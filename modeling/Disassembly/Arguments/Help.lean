/-!
# Help

The texts that the program prints when it is asked what it is.
-/

namespace Disassembly.Arguments

/-- The version of the program. -/
def version : String :=
  "0.1.0"

/-- The answer to `--version`. -/
def versionText : String :=
  "dfr " ++ version ++ "\n"

/-- How the program is called. -/
def usage : String :=
  "Usage: dfr [OPTIONS] [INFILE]...\n"

/-- The answer to `--help`. -/
def helpText : String :=
  "Disassembler for Fujitsu FR firmware images\n\n"
    ++ usage
    ++ "\nArguments:\n"
    ++ "  [INFILE]...  Input firmware image\n"
    ++ "\nOptions:\n"
    ++ "  -d <RANGE>          Disassemble only this range (start-end or start,length)\n"
    ++ "  -e <ADDRESS=NAME>   Declare an entry point\n"
    ++ "  -f <RANGE=ADDRESS>  Map a range onto a file offset for correlation\n"
    ++ "  -i <RANGE=OFFSET>   Map a memory range onto a file offset\n"
    ++ "  -l                  Input is little-endian\n"
    ++ "  -m <RANGE=TYPE>     Memory range content type (-m? lists types)\n"
    ++ "  -o <OUTFILE>        Output file\n"
    ++ "  -r                  One output file per memory range\n"
    ++ "  -s <ADDRESS=NAME>   Declare a symbol\n"
    ++ "  -t <ADDRESS>        Interrupt vector table address\n"
    ++ "  -v                  Verbose\n"
    ++ "  -w <OPTIONS>        Output options (-w? lists them)\n"
    ++ "  -x <FILE>           Read options from a file\n"
    ++ "  -z                  Debug\n"
    ++ "  -h, --help          Print help\n"
    ++ "  -V, --version       Print version\n"

end Disassembly.Arguments
