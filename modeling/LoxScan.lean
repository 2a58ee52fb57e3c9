import LoxScan.CommandLine.SuiteCommand
import LoxScan.Main
import LoxScan.Proofs.CommandLine.Outcome
import LoxScan.Proofs.Report.Delivery
import LoxScan.Proofs.Report.Receivers
import LoxScan.Proofs.Session.Dump
import LoxScan.Proofs.Session.FileAndPrompt
import LoxScan.Proofs.Session.Input
import LoxScan.Proofs.Session.Limits
import LoxScan.Proofs.Session.Prompt
import LoxScan.Proofs.Source.Blanking
import LoxScan.Proofs.Source.BufferScan
import LoxScan.Proofs.Source.Concatenation
import LoxScan.Proofs.Source.DisplayedNumbers
import LoxScan.Proofs.Source.Extension
import LoxScan.Proofs.Source.Layout
import LoxScan.Proofs.Source.LineByLine
import LoxScan.Proofs.Source.LineEndings
import LoxScan.Proofs.Source.Numbers
import LoxScan.Proofs.Suite.AnnotatedRun
import LoxScan.Proofs.Suite.MarkPatterns
import LoxScan.Proofs.Suite.Passing
import LoxScan.Proofs.Suite.Replay
import LoxScan.Proofs.Suite.TestFiles
import LoxScan.Report.Receiver
import LoxScan.Session
import LoxScan.Text.RoundTrip
