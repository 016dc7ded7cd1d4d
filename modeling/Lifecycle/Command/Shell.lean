import Lifecycle.Release

/-!
# Shells

The shells whose users can have words completed for them, and how each of them is set up for it.
-/

namespace Lifecycle

inductive Shell where
  | bash
  | fish
  | powershell
  | zsh
deriving DecidableEq

namespace Shell

def all : List Shell := [.bash, .fish, .powershell, .zsh]

def name : Shell → Text
  | .bash => "bash"
  | .fish => "fish"
  | .powershell => "powershell"
  | .zsh => "zsh"

def ofText? (t : Text) : Option Shell := all.find? (·.name = t)

def about (s : Shell) : Text := "Generate the autocompletion script for " ++ s.name

def call (s : Shell) : Text := Release.tool ++ " completion " ++ s.name

def everySession (linux mac : Text) : Text :=
  "To load completions for every new session, execute once:\n\n#### Linux:\n\n\t" ++ linux ++
    "\n\n#### macOS:\n\n\t" ++ mac ++ "\n\n"

def thisSession (line : Text) : Text :=
  "To load completions in your current shell session:\n\n\t" ++ line ++ "\n\n"

def newShell : Text := "You will need to start a new shell for this setup to take effect."

def introduction (s : Shell) : Text :=
  match s with
  | .bash =>
    "Generate the autocompletion script for the bash shell.\n\n" ++
      "This script depends on the 'bash-completion' package.\n" ++
      "If it is not installed already, you can install it via your OS's package manager.\n\n" ++
      thisSession ("source <(" ++ s.call ++ ")") ++
      everySession (s.call ++ " > /etc/bash_completion.d/" ++ Release.tool)
        (s.call ++ " > $(brew --prefix)/etc/bash_completion.d/" ++ Release.tool) ++ newShell
  | .fish =>
    "Generate the autocompletion script for the fish shell.\n\n" ++
      thisSession (s.call ++ " | source") ++
      "To load completions for every new session, execute once:\n\n\t" ++ s.call ++
      " > ~/.config/fish/completions/" ++ Release.tool ++ ".fish\n\n" ++ newShell
  | .powershell =>
    "Generate the autocompletion script for powershell.\n\n" ++
      thisSession (s.call ++ " | Out-String | Invoke-Expression") ++
      "To load completions for every new session, add the output of the above command\n" ++
      "to your powershell profile."
  | .zsh =>
    "Generate the autocompletion script for the zsh shell.\n\n" ++
      "If shell completion is not already enabled in your environment you will need\n" ++
      "to enable it.  You can execute the following once:\n\n" ++
      "\techo \"autoload -U compinit; compinit\" >> ~/.zshrc\n\n" ++
      thisSession ("source <(" ++ s.call ++ ")") ++
      everySession (s.call ++ " > \"$\x7bfpath[1]\x7d/_" ++ Release.tool ++ "\"")
        (s.call ++ " > $(brew --prefix)/share/zsh/site-functions/_" ++ Release.tool) ++ newShell

end Shell

end Lifecycle
