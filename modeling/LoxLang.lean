import LoxLang.Main
import LoxLang.Token.Tiling
import LoxLang.Number.Text
import LoxLang.Proofs.Reading.Exact
import LoxLang.Proofs.Running.ByName
import LoxLang.Proofs.Renaming.Unseen
import LoxLang.Proofs.History.Initialized
import LoxLang.Proofs.History.Jumps
import LoxLang.Proofs.Scoping.Decided
import LoxLang.Proofs.Sessions.Gate
import LoxLang.Proofs.Sessions.Joining
import LoxLang.Proofs.Nesting.Steps
import LoxLang.Proofs.Reading.Appending
import LoxLang.Proofs.Receivers.Fixed
import LoxLang.Proofs.Sessions.Resumed
import LoxLang.Proofs.History.Blamed
import LoxLang.Proofs.Loops.Agreed
import LoxLang.Proofs.Written.Determined
import LoxLang.Proofs.Token.Joined
import LoxLang.Proofs.Token.Respelled
import LoxLang.Proofs.Token.Surroundings
import LoxLang.Proofs.Environments
import LoxLang.Proofs.Lists
import LoxLang.Proofs.Choices
import LoxLang.Proofs.Sessions.Prompt
