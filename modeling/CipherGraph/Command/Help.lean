import CipherGraph.Command.Arguments

/-! # Help

What the program says about its commands and their options.
-/

namespace CipherGraph

def programName : String := "fhegraph"

namespace CommandName

def about : CommandName → String
  | .keygen => "Compile a graph and write owner, server and client key bundles"
  | .encrypt => "Encrypt a valuation JSON file with a bundle that can encrypt"
  | .execute => "Execute the bundle's graph on an input blob"
  | .decrypt => "Decrypt an output blob and print it as valuation JSON"

def usage : CommandName → String
  | .keygen => "keygen [OPTIONS] --graph <GRAPH>"
  | .encrypt => "encrypt --bundle <BUNDLE> --inputs <INPUTS> --out <OUT>"
  | .execute => "execute --bundle <BUNDLE> --inputs <INPUTS> --out <OUT>"
  | .decrypt => "decrypt [OPTIONS] --bundle <BUNDLE> --outputs <OUTPUTS>"

def inputOptions : List String :=
  ["  -b, --bundle <BUNDLE>  ", "  -i, --inputs <INPUTS>  ", "  -o, --out <OUT>        ",
    "  -h, --help             Print help"]

def optionLines : CommandName → List String
  | .keygen =>
    ["  -g, --graph <GRAPH>            Graph record JSON",
      "  -s, --scheme <SCHEME>          Backend scheme: ckks, bfv or bitwise (default: inferred)",
      "  -c, --config <CONFIG>          " ++
        "Scheme configuration JSON (default: from FHEGRAPH_* variables)",
      "      --scale-bits <SCALE_BITS>  Fixed-point scale, log2; approximate scheme only",
      "  -o, --out-dir <OUT_DIR>        " ++
        "Directory for owner.bundle, server.bundle and client.bundle",
      "                                 [default: .]",
      "  -h, --help                     Print help"]
  | .encrypt | .execute => inputOptions
  | .decrypt =>
    ["  -b, --bundle <BUNDLE>    ", "  -o, --outputs <OUTPUTS>  ",
      "      --out <OUT>          Write to this file instead of stdout",
      "  -h, --help               Print help"]

end CommandName

namespace HelpTopic

def helpAbout : String := "Print this message or the help of the given subcommand(s)"

def usageLine (usage : String) : String := "Usage: " ++ programName ++ " " ++ usage

/-- A name with blanks up to a width of nine. -/
def column (name : String) : String :=
  name ++ String.ofList (List.replicate (9 - name.length) ' ')

def lines : HelpTopic → List String
  | .program =>
    ["Homomorphic graph compiler and runner", "", usageLine "<COMMAND>", "", "Commands:"] ++
      CommandName.all.map (fun name => "  " ++ column name.text ++ name.about) ++
      ["  help     " ++ helpAbout, "", "Options:", "  -h, --help  Print help"]
  | .command name => [name.about, "", usageLine name.usage, "", "Options:"] ++ name.optionLines
  | .help =>
    [helpAbout, "", usageLine "help [COMMAND]...", "", "Arguments:",
      "  [COMMAND]...  Print help for the subcommand(s)"]

def text (topic : HelpTopic) : String := String.join (topic.lines.map (· ++ "\n"))

end HelpTopic

end CipherGraph
